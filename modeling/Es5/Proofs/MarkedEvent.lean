import Es5.Proofs.MarkedStream
import Es5.Yaml.Document

/-!
# Marks of events and of documents

Events stand where their tokens begin or end, the parts of a document where their events stand.

* `Parse.Tracks`: an action keeps the marks of the tokens in the text.
* `Parse.places_node`, **`EventStream.places_next`**: the next event.
* `Document.Within`: a document all of whose marks stand in a text.
* **`Document.within_ofChars`**: the document of a text.
-/

namespace Es5.Yaml

variable {text : List Char}

namespace Parse

/-- An action keeps the marks of the tokens in the text, and meets problems only at its characters. -/
abbrev Tracks {α : Type} (text : List Char) (m : Parse α) (Q : α → Prop := fun _ => True) : Prop :=
  Keeps (fun s : EventStream => s.tokens.Within text) (Problem.Within text) m Q

/-- An action gives an event at a character of the text. -/
abbrev Places (text : List Char) (m : Parse Placed) : Prop := Tracks text m fun e => e.mark.At text

variable {α : Type} {Q : α → Prop}

/-! ## Moves -/

theorem tracks_scan {m : Scan α} (h : Scan.Tracks text m Q) : Tracks text (scan m) Q :=
  .look fun _ hs => .bind (.lift h hs) fun _ hr => .next (.set hr.2) fun _ => .pure hr.1

theorem tracks_peek : Tracks text peek fun t => t.Within text := tracks_scan TokenStream.tracks_peek

theorem tracks_drop : Tracks text drop := tracks_scan TokenStream.tracks_drop

theorem tracks_dropPeek : Tracks text dropPeek fun t => t.Within text :=
  .next tracks_drop fun _ => tracks_peek

theorem tracks_expect (e : Expectation) : Tracks text (expect e) := .modify fun _ hs => hs

theorem tracks_push (e : Expectation) : Tracks text (push e) := .modify fun _ hs => hs

theorem tracks_pop : Tracks text pop := .modify fun _ hs => hs

theorem tracks_leave : Tracks text leave := .modify fun _ hs => hs

theorem tracks_enter (first : Bool) : Tracks text (enter first) :=
  .ite (.bind tracks_peek fun _ _ => .next (.modify fun _ hs => hs) fun _ => tracks_drop) .done

theorem tracks_fail (what : String) {m : Mark} (hm : m.At text) :
    Tracks text (fail what m : Parse α) Q :=
  .throw hm

theorem tracks_failInside (reading what : String) {m : Mark} (hm : m.At text) :
    Tracks text (failInside reading what m : Parse α) Q :=
  .look fun _ _ => .throw hm

theorem places_missing {m : Mark} (hm : m.At text) : Places text (missing m) := .pure hm

theorem places_missingThen (e : Expectation) {m : Mark} (hm : m.At text) :
    Places text (missingThen e m) :=
  .next (tracks_expect _) fun _ => places_missing hm

/-! ## Directives -/

theorem tracks_directives (fuel : Nat) (versioned : Bool) (handles : List (String × Tag)) :
    Tracks text (directives fuel versioned handles) := by
  have hnone (handles : List (String × Tag)) (versioned : Bool) :
      Tracks text (directives 0 versioned handles) := by
    rw [directives]
    exact .modify fun _ hs => hs
  induction fuel generalizing versioned handles with
  | zero => exact hnone ..
  | succ fuel ih =>
    rw [directives]
    refine .bind tracks_peek fun t ht => ?_
    split
    · have hversion : Tracks text (do drop; directives fuel true handles) :=
        .next tracks_drop fun _ => ih _ _
      exact .ite (.next (tracks_fail _ ht.1) fun _ => .onlyIf (tracks_fail _ ht.1) fun _ => hversion)
        (.onlyIf (tracks_fail _ ht.1) fun _ => hversion)
    · exact .onlyIf (tracks_fail _ ht.1) fun _ => .next tracks_drop fun _ => ih _ _
    · exact hnone ..

/-! ## Nodes -/

theorem tracks_anchor? : Tracks text anchor? := by
  refine .bind tracks_peek fun t ht => ?_
  split
  · exact .next tracks_drop fun _ => .done
  · exact .done

theorem tracks_tag? : Tracks text tag? fun tag => ∀ t ∈ tag, t.2.2.At text := by
  refine .bind tracks_peek fun t ht => ?_
  split
  · refine .next tracks_drop fun _ => .pure ?_
    rintro _ ⟨⟩
    exact ht.1
  · exact .pure nofun

theorem tracks_properties : Tracks text properties fun r => ∀ t ∈ r.2, t.2.2.At text := by
  refine .next tracks_anchor? fun anchor => ?_
  split
  · exact .bind tracks_tag? fun _ htag => .pure htag
  · refine .bind tracks_tag? fun tag htag => ?_
    split
    · exact .next tracks_anchor? fun _ => .pure htag
    · exact .pure nofun

theorem tracks_fullTag (start : Mark) {tag : Option (String × Tag × Mark)}
    (htag : ∀ t ∈ tag, t.2.2.At text) : Tracks text (fullTag start tag) := by
  unfold fullTag
  split
  · exact .done
  · refine .ite .done (.look fun s hs => ?_)
    split
    · exact .done
    · exact .throw (htag _ rfl)

theorem places_start (e : Expectation) (event : Event) {m : Mark} (hm : m.At text) :
    Places text (start e event m) :=
  .next (tracks_expect _) fun _ => .pure hm

theorem places_node (block flat : Bool) : Places text (node block flat) := by
  refine .bind tracks_peek fun t ht => ?_
  split
  · exact .next tracks_pop fun _ => .next tracks_drop fun _ => .pure ht.1
  · refine .bind tracks_properties fun r hr => .bind tracks_peek fun u hu =>
      .next (tracks_fullTag _ hr) fun tag => ?_
    split
    case h_2 => exact .next tracks_pop fun _ => .next tracks_drop fun _ => .pure ht.1
    case h_7 => exact .ite (.next tracks_pop fun _ => .pure ht.1) (.throw hu.1)
    all_goals exact places_start _ _ ht.1

theorem places_nodeThen (e : Expectation) (block flat : Bool) :
    Places text (nodeThen e block flat) :=
  .next (tracks_push _) fun _ => places_node ..

theorem places_finish (event : Event) {t : Token} (ht : t.Within text) :
    Places text (finish event t) :=
  .next tracks_pop fun _ => .next tracks_leave fun _ => .next tracks_drop fun _ => .pure ht.1

/-! ## Documents -/

theorem tracks_skipDocumentEnds (fuel : Nat) : Tracks text (skipDocumentEnds fuel) := by
  induction fuel with
  | zero => exact .done
  | succ fuel ih => exact .bind tracks_peek fun _ _ => .ite (.next tracks_drop fun _ => ih) .done

theorem tracks_tokenBound : Tracks text tokenBound := .look fun _ _ => .done

theorem places_document (first : Bool) : Places text (document first) := by
  have hstart : Places text (do
      let t ← peek
      if first && !isOutside t.kind then
        directives 0 false []
        push .documentEnd
        expect .blockNode
        pure ⟨.documentStart, t.start⟩
      else if t.kind != .streamEnd then
        directives (← tokenBound) false []
        let u ← peek
        if u.kind != .documentStart then fail "did not find expected <document start>" u.start
        else
          push .documentEnd
          expect .content
          drop
          pure ⟨.documentStart, t.start⟩
      else
        expect .nothing
        drop
        pure ⟨.streamEnd, t.start⟩) := by
    refine .bind tracks_peek fun t ht => .ite ?_ (.ite ?_ ?_)
    · exact .next (tracks_directives ..) fun _ => .next (tracks_push _) fun _ =>
        .next (tracks_expect _) fun _ => .pure ht.1
    · refine .next tracks_tokenBound fun _ => .next (tracks_directives ..) fun _ =>
        .bind tracks_peek fun u hu => .ite (tracks_fail _ hu.1) ?_
      exact .next (tracks_push _) fun _ => .next (tracks_expect _) fun _ =>
        .next tracks_drop fun _ => .pure ht.1
    · exact .next (tracks_expect _) fun _ => .next tracks_drop fun _ => .pure ht.1
  refine .ite ?_ hstart
  exact .next tracks_tokenBound fun _ => .next (tracks_skipDocumentEnds _) fun _ => hstart

theorem places_content : Places text content := by
  refine .bind tracks_peek fun t ht => .ite ?_ (places_node ..)
  exact .next tracks_pop fun _ => places_missing ht.1

theorem places_documentEnd : Places text documentEnd := by
  refine .bind tracks_peek fun t ht => .onlyIf tracks_drop fun _ => ?_
  exact .next (.modify fun _ hs => hs) fun _ => .pure ht.1

/-! ## Collections -/

theorem places_entry (first : Bool) : Places text (entry first) := by
  refine .next (tracks_enter _) fun _ => .bind tracks_peek fun t ht => ?_
  split
  · refine .bind tracks_dropPeek fun u hu => ?_
    split
    case h_3 => exact places_nodeThen ..
    all_goals exact places_missingThen _ ht.2
  · exact places_finish _ ht
  · exact tracks_failInside _ _ ht.1

theorem places_flatEntry : Places text flatEntry := by
  refine .bind tracks_peek fun t ht => ?_
  split
  · refine .bind tracks_dropPeek fun u hu => ?_
    split
    case h_5 => exact places_nodeThen ..
    all_goals exact places_missingThen _ ht.2
  · exact .next tracks_pop fun _ => .pure ht.1

theorem places_key (first : Bool) : Places text (key first) := by
  refine .next (tracks_enter _) fun _ => .bind tracks_peek fun t ht => ?_
  split
  · refine .bind tracks_dropPeek fun u hu => ?_
    split
    case h_4 => exact places_nodeThen ..
    all_goals exact places_missingThen _ ht.2
  · exact places_finish _ ht
  · exact tracks_failInside _ _ ht.1

theorem places_value : Places text value := by
  refine .bind tracks_peek fun t ht => ?_
  split
  · refine .bind tracks_dropPeek fun u hu => ?_
    split
    case h_4 => exact places_nodeThen ..
    all_goals exact places_missingThen _ ht.2
  · exact places_missingThen _ ht.1

theorem tracks_comma (first : Bool) (reading what : String) :
    Tracks text (comma first reading what) :=
  .ite (.bind tracks_peek fun _ ht => .ite tracks_drop (tracks_failInside _ _ ht.1)) .done

theorem places_flowEntry (first : Bool) : Places text (flowEntry first) := by
  refine .next (tracks_enter _) fun _ => .bind tracks_peek fun t ht => .ite (places_finish _ ht) ?_
  refine .next (tracks_comma ..) fun _ => .bind tracks_peek fun u hu => ?_
  split
  · exact .next tracks_drop fun _ => places_start _ _ hu.1
  · exact places_finish _ hu
  · exact places_nodeThen ..

theorem places_pairKey : Places text pairKey := by
  refine .bind tracks_peek fun t ht => ?_
  split
  case h_4 => exact places_nodeThen ..
  all_goals exact .next tracks_drop fun _ => places_missingThen _ ht.2

theorem places_pairValue : Places text pairValue := by
  refine .bind tracks_peek fun t ht => ?_
  split
  · refine .bind tracks_dropPeek fun u hu => ?_
    split
    case h_3 => exact places_nodeThen ..
    all_goals exact places_missingThen _ hu.1
  · exact places_missingThen _ ht.1

theorem places_pairEnd : Places text pairEnd :=
  .bind tracks_peek fun _ ht => .next (tracks_expect _) fun _ => .pure ht.1

theorem places_flowKey (first : Bool) : Places text (flowKey first) := by
  refine .next (tracks_enter _) fun _ => .bind tracks_peek fun t ht => .ite (places_finish _ ht) ?_
  refine .next (tracks_comma ..) fun _ => .bind tracks_peek fun u hu => ?_
  split
  · refine .bind tracks_dropPeek fun v hv => ?_
    split
    case h_4 => exact places_nodeThen ..
    all_goals exact places_missingThen _ hv.1
  · exact places_finish _ hu
  · exact places_nodeThen ..

theorem places_flowValue (isMissing : Bool) : Places text (flowValue isMissing) := by
  refine .bind tracks_peek fun t ht => ?_
  split
  · refine .bind tracks_dropPeek fun u hu => ?_
    split
    case h_3 => exact places_nodeThen ..
    all_goals exact places_missingThen _ hu.1
  · exact places_missingThen _ ht.1

end Parse

/-- **Every event stands at a character of the text, and so does every problem that is met.** -/
theorem EventStream.places_next : Parse.Places text EventStream.next := by
  refine .look fun s hs => ?_
  split
  · exact .bind Parse.tracks_peek fun t ht => .next Parse.tracks_drop fun _ =>
      Parse.places_start _ _ ht.1
  · exact Parse.places_document _
  · exact Parse.places_content
  · exact Parse.places_documentEnd
  · exact Parse.places_node ..
  · exact Parse.places_entry _
  · exact Parse.places_flatEntry
  · exact Parse.places_key _
  · exact Parse.places_value
  · exact Parse.places_flowEntry _
  · exact Parse.places_pairKey
  · exact Parse.places_pairValue
  · exact Parse.places_pairEnd
  · exact Parse.places_flowKey _
  · exact Parse.places_flowValue _
  · exact .look fun s hs => .pure hs.cursor.mark

/-! ## Documents as a whole -/

/-- A failure has no mark, or one at a character of a text. -/
def Failure.Within (text : List Char) : Failure → Prop
  | problem p => p.Within text
  | unknownAnchor m => m.At text
  | _ => True

/-- All marks of a document stand in a text. -/
structure Document.Within (text : List Char) (d : Document) : Prop where
  items : ∀ i ∈ d.items, i.mark.At text
  failure : ∀ f ∈ d.failure, f.Within text

namespace Document

theorem Within.push {d : Document} (h : d.Within text) (item : Item) {m : Mark} (hm : m.At text) :
    (d.push item m).Within text :=
  { h with items := by simpa [Document.push, or_imp, forall_and] using ⟨h.items, hm⟩ }

theorem Within.mark {d : Document} (h : d.Within text) (anchor : Option String) :
    (d.mark anchor).Within text := by
  cases anchor <;> exact { h with }

theorem Within.add {d : Document} (h : d.Within text) {e : Placed} (he : e.mark.At text) :
    (d.add e).Within text := by
  unfold Document.add
  split
  · split
    · exact h.push _ he
    · exact { h with failure := by rintro _ ⟨⟩; exact he }
  · exact (h.mark _).push _ he
  · exact (h.mark _).push _ he
  · exact h.push _ he
  · exact (h.mark _).push _ he
  · exact h.push _ he
  · exact h

/-- A document that is read from a stream whose marks stand in a text, and what is left of that. -/
theorem Within.readFrom {first : Bool} {fuel : Nat} {d : Document} {s : EventStream}
    (hd : d.Within text) (hs : s.tokens.Within text) {r : Document × EventStream}
    (h : Document.readFrom first fuel d s = some r) : r.1.Within text ∧ r.2.tokens.Within text := by
  induction fuel generalizing d s with
  | zero =>
    cases h
    exact ⟨{ hd with failure := by rintro _ ⟨⟩; trivial }, hs⟩
  | succ fuel ih =>
    have hnext := EventStream.places_next.run s hs
    unfold Document.readFrom at h
    cases hevent : EventStream.next s with
    | error p =>
      rw [hevent] at h hnext
      cases h
      exact ⟨{ hd with failure := by rintro _ ⟨⟩; exact hnext }, hs⟩
    | ok r' =>
      obtain ⟨e, s'⟩ := r'
      rw [hevent] at h hnext
      obtain ⟨he, hs'⟩ := hnext
      dsimp only at h
      split at h
      · split at h
        · cases h
        · split at h <;> cases h
          · exact ⟨hd.push _ he, hs'⟩
          · exact ⟨hd, hs'⟩
      · cases h
        exact ⟨hd, hs'⟩
      · split at h
        · cases h
          exact ⟨hd.add he, hs'⟩
        · exact ih (hd.add he) hs' h

end Document

end Es5.Yaml
