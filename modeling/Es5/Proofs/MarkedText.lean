import Es5.Proofs.Boundary
import Es5.Yaml.Token.Property
import Es5.Yaml.Token.Scalar
import Mathlib.Data.List.TakeWhile

/-!
# Marks in a text

The index of a mark counts bytes, and a mark is only of use if it does not stand within a character.
The cursor of a text stands at its next character, and reading keeps it there: every reader of a
part of the text leaves the cursor in its place, and meets problems only where a character begins.

* `Mark.At`, `Cursor.Within`: a mark at a character of a text, and a cursor in its place.
* `Keeps`: an action keeps a property of the state and fails only in a certain way.
* `Lex.Tracks`: a reader keeps the cursor in its place.
* `Lex.tracks_directive`, `Lex.tracks_tag`, `Lex.tracks_anchorName`: directives, tags and anchors.
* `Lex.tracks_plain`, `Lex.tracks_quoted`, `Lex.tracks_block`: scalars.
-/

namespace Es5

open Text

/-! ## Actions that keep a property -/

section Keeps

variable {σ ε α β : Type} {P : σ → Prop} {E E' : ε → Prop} {Q : α → Prop} {R : β → Prop}

/--
From every state with `P` an action gives a value with `Q` and a state with `P`, or it fails with an
error that satisfies `E`.
-/
structure Keeps (P : σ → Prop) (E : ε → Prop) (m : StateT σ (Except ε) α)
    (Q : α → Prop := fun _ => True) : Prop where
  run : ∀ s, P s → match m s with
    | .ok (a, s') => Q a ∧ P s'
    | .error e => E e

namespace Keeps

theorem pure {a : α} (h : Q a) : Keeps P E (pure a) Q := ⟨fun _ hs => ⟨h, hs⟩⟩

theorem done {a : α} : Keeps P E (Pure.pure a) := pure trivial

theorem get : Keeps P E MonadState.get P := ⟨fun _ hs => ⟨hs, hs⟩⟩

theorem set {s : σ} (h : P s) : Keeps P E (set s) := ⟨fun _ _ => ⟨trivial, h⟩⟩

theorem modify {f : σ → σ} (h : ∀ s, P s → P (f s)) : Keeps P E (modify f) :=
  ⟨fun s hs => ⟨trivial, h s hs⟩⟩

theorem throw {e : ε} (h : E e) : Keeps P E (throw e) Q := ⟨fun _ _ => h⟩

theorem bind {m : StateT σ (Except ε) α} {f : α → StateT σ (Except ε) β} (hm : Keeps P E m Q)
    (hf : ∀ a, Q a → Keeps P E (f a) R) : Keeps P E (m >>= f) R := by
  constructor
  intro s hs
  have h := hm.run s hs
  change match (m s).bind fun (a, s) => f a s with
    | .ok (b, s') => R b ∧ P s'
    | .error e => E e
  cases hms : m s with
  | error e => simpa [hms, Except.bind] using h
  | ok r =>
    rw [hms] at h
    exact (hf r.1 h.1).run r.2 h.2

/-- Two actions in a row, of which the second does not depend on what the first gives. -/
theorem next {m : StateT σ (Except ε) α} {f : α → StateT σ (Except ε) β} (hm : Keeps P E m)
    (hf : ∀ a, Keeps P E (f a) R) : Keeps P E (m >>= f) R :=
  hm.bind fun a _ => hf a

theorem ite {c : Prop} [Decidable c] {m m' : StateT σ (Except ε) α} (hm : Keeps P E m Q)
    (hm' : Keeps P E m' Q) : Keeps P E (if c then m else m') Q := by
  split <;> assumption

/-- An action in a row that is left out unless a condition holds. -/
theorem onlyIf {c : Prop} [Decidable c] {m : StateT σ (Except ε) PUnit}
    {f : PUnit → StateT σ (Except ε) β} (hm : Keeps P E m) (hf : ∀ u, Keeps P E (f u) R) :
    Keeps P E (if c then m >>= f else f ⟨⟩) R :=
  .ite (hm.next hf) (hf ⟨⟩)

/-- An action that begins with a look at the state. -/
theorem look {f : σ → StateT σ (Except ε) β} (hf : ∀ s, P s → Keeps P E (f s) R) :
    Keeps P E (MonadState.get >>= f) R :=
  get.bind hf

theorem tryCatch {m : StateT σ (Except ε) α} {h : ε → StateT σ (Except ε) α}
    (hm : Keeps P E' m Q) (hh : ∀ e, E' e → Keeps P E (h e) Q) : Keeps P E (tryCatch m h) Q := by
  constructor
  intro s hs
  have hms := hm.run s hs
  have hrun : (MonadExcept.tryCatch m h : StateT σ (Except ε) α) s =
      (m s).tryCatch fun e => h e s := rfl
  rw [hrun]
  cases hr : m s with
  | error e =>
    rw [hr] at hms
    exact (hh e hms).run s hs
  | ok r =>
    rw [hr] at hms
    exact hms

/-- An action on a part of the state. -/
theorem lift {τ : Type} {P' : τ → Prop} {m : StateT τ (Except ε) α} (hm : Keeps P' E m Q) {t : τ}
    (ht : P' t) : Keeps P E (liftM (m t)) fun r => Q r.1 ∧ P' r.2 := by
  constructor
  intro s hs
  have h := hm.run t ht
  have hrun : (liftM (m t) : StateT σ (Except ε) (α × τ)) s = (m t).bind fun r => .ok (r, s) := rfl
  rw [hrun]
  cases hmt : m t with
  | error e => simpa [hmt, Except.bind] using h
  | ok r =>
    rw [hmt] at h
    exact ⟨h, hs⟩

theorem forIn {xs : List α} {f : α → PUnit → StateT σ (Except ε) (ForInStep PUnit)} {u : PUnit}
    (h : ∀ x u, Keeps P E (f x u)) : Keeps P E (ForIn.forIn xs u f) := by
  induction xs generalizing u with
  | nil => exact done
  | cons x xs ih =>
    rw [List.forIn_cons]
    refine (h x u).next fun r => ?_
    cases r with
    | done => exact done
    | yield => exact ih

end Keeps

end Keeps

namespace Yaml

/-! ## Marks and cursors -/

/-- A mark stands at a character of a text, or at its end. -/
def Mark.At (text : List Char) (m : Mark) : Prop :=
  ∃ before, before <+: text ∧ m.index = byteLength before

/-- A cursor stands at its next character in a text. -/
def Cursor.Within (text : List Char) (c : Cursor) : Prop :=
  ∃ before, before ++ c.rest <+: text ∧ c.mark.index = byteLength before

variable {text : List Char}

theorem Mark.index_foldl_after (cs : List Char) (m : Mark) :
    (cs.foldl Mark.after m).index = m.index + byteLength cs := by
  induction cs generalizing m with
  | nil => rfl
  | cons c cs ih =>
    rw [List.foldl_cons, ih, byteLength_cons, ← Nat.add_assoc]
    rfl

namespace Cursor.Within

variable {c : Cursor}

theorem mark (h : c.Within text) : c.mark.At text := by
  obtain ⟨before, hbefore, hindex⟩ := h
  exact ⟨before, (List.prefix_append before c.rest).trans hbefore, hindex⟩

/-- A cursor that has passed some characters stands at the next one. -/
theorem pass {c' : Cursor} (h : c.Within text) (passed : List Char)
    (hrest : c.rest = passed ++ c'.rest)
    (hindex : c'.mark.index = c.mark.index + byteLength passed) : c'.Within text := by
  obtain ⟨before, hbefore, hmark⟩ := h
  exact ⟨before ++ passed, by rwa [List.append_assoc, ← hrest], by
    rw [hindex, hmark, byteLength_append]⟩

theorem skip (h : c.Within text) : c.skip.Within text := by
  cases hrest : c.rest with
  | nil => exact h.pass [] (by simp [Cursor.skip, hrest]) (by simp [Cursor.skip, hrest])
  | cons x xs =>
    exact h.pass [x] (by simp [Cursor.skip, hrest])
      (by simp [Cursor.skip, hrest, Mark.after])

theorem newLine (h : c.Within text) (width : Nat) : (c.newLine width).Within text :=
  h.pass _ (List.take_append_drop width c.rest).symm rfl

theorem skipWhile (h : c.Within text) (p : Char → Bool) : (c.skipWhile p).Within text :=
  h.pass _ List.takeWhile_append_dropWhile.symm (Mark.index_foldl_after _ _)

theorem lineBreak? (h : c.Within text) {x : Char} {c' : Cursor} (hc : c.lineBreak? = some (x, c')) :
    c'.Within text := by
  unfold Cursor.lineBreak? at hc
  split at hc
  · cases hc
    exact h.newLine 2
  · split at hc
    · cases hc
      exact h.newLine 1
    · split at hc
      · cases hc
        exact h.newLine 1
      · cases hc
  · cases hc

theorem skipBreak (h : c.Within text) : c.skipBreak.Within text := by
  unfold Cursor.skipBreak
  cases hc : c.lineBreak? with
  | none => exact h
  | some r => exact h.lineBreak? hc

end Cursor.Within

/-! ## Readers of a part of a text -/

/-- A problem that was met at a character of a text. -/
def Problem.Within (text : List Char) (p : Problem) : Prop := p.mark.At text

namespace Lex

/-- A reader keeps its cursor in its place, and meets problems only at characters of the text. -/
abbrev Tracks {α : Type} (text : List Char) (m : Lex α) (Q : α → Prop := fun _ => True) : Prop :=
  Keeps (Cursor.Within text) (Problem.Within text) m Q

variable {α : Type} {Q : α → Prop}

theorem tracks_fail (reading : String) (start : Mark) (what : String) :
    Tracks text (fail reading start what : Lex α) Q :=
  .look fun _ hc => .throw hc.mark

theorem tracks_skip : Tracks text skip := .modify fun _ hc => hc.skip

theorem tracks_skipBreak : Tracks text (modify Cursor.skipBreak) := .modify fun _ hc => hc.skipBreak

theorem tracks_takeWhile (p : Char → Bool) : Tracks text (takeWhile p) :=
  .look fun _ hc => .next (.set (hc.skipWhile p)) fun _ => .done

theorem tracks_skipLineEnd : Tracks text skipLineEnd := by
  refine .next (tracks_takeWhile _) fun _ => .look fun c hc => ?_
  split
  · exact .next (tracks_takeWhile _) fun _ => .done
  · exact .done

/-! ### Tags -/

theorem tracks_escapedOctet (reading : String) (start : Mark) :
    Tracks text (escapedOctet reading start) := by
  refine .look fun c hc => ?_
  split
  · exact .next tracks_skip fun _ => .next tracks_skip fun _ => .next tracks_skip fun _ => .done
  · exact tracks_fail ..

theorem tracks_trailingOctets (reading : String) (start : Mark) (count code : Nat) :
    Tracks text (trailingOctets reading start count code) := by
  induction count generalizing code with
  | zero => exact .done
  | succ count ih =>
    refine .look fun c hc => .next (tracks_escapedOctet ..) fun octet => ?_
    split
    · exact ih _
    · exact .next (.set hc) fun _ => tracks_fail ..

theorem tracks_escapedChar (reading : String) (start : Mark) :
    Tracks text (escapedChar reading start) := by
  refine .look fun c hc => .next (tracks_escapedOctet ..) fun octet => ?_
  split
  · exact .next (.set hc) fun _ => tracks_fail ..
  · exact .done
  · exact .next (tracks_trailingOctets ..) fun _ => .done

theorem tracks_tagChars (bracketed : Bool) (reading : String) (start : Mark) (fuel : Nat)
    (taken : List (Option Char)) : Tracks text (tagChars bracketed reading start fuel taken) := by
  induction fuel generalizing taken with
  | zero => exact .done
  | succ fuel ih =>
    refine .look fun c hc => ?_
    split
    · exact .done
    · exact .next (tracks_escapedChar ..) fun _ => ih _
    · exact .next tracks_skip fun _ => ih _

theorem tracks_tagText (bracketed : Bool) (reading : String) (start : Mark) (head : List Char) :
    Tracks text (tagText bracketed reading start head) := by
  refine .look fun c hc => .next (tracks_tagChars ..) fun taken => ?_
  split
  · exact tracks_fail ..
  · exact .done

theorem tracks_tagHandle (reading : String) (start : Mark) :
    Tracks text (tagHandle reading start) := by
  refine .look fun c hc => ?_
  split
  · exact tracks_fail ..
  · refine .next tracks_skip fun _ => .next (tracks_takeWhile _) fun name => .look fun c hc => ?_
    split
    · exact .next tracks_skip fun _ => .done
    · exact .done

theorem tracks_shortTag (start : Mark) : Tracks text (shortTag start) := by
  refine .next (tracks_tagHandle ..) fun head => ?_
  split
  · exact .next (tracks_tagText ..) fun _ => .done
  · exact .next (tracks_tagText ..) fun _ => .done

theorem tracks_tag (inFlow : Bool) : Tracks text (tag inFlow) := by
  have hend (start : Mark) (parts : List Char × Tag) : Tracks text (do
      let c ← get
      if c.endsWord 0 || (inFlow && c.has 0 ',') then pure (String.ofList parts.1, parts.2)
      else fail "while scanning a tag" start "did not find expected whitespace or line break") := by
    refine .look fun c hc => ?_
    split
    · exact .done
    · exact tracks_fail ..
  refine .look fun c hc => ?_
  dsimp only
  split
  · refine .next tracks_skip fun _ => .next tracks_skip fun _ =>
      .next (tracks_tagText ..) fun rest => .look fun c hc => ?_
    split
    · exact .next tracks_skip fun _ => .next .done fun _ => hend ..
    · exact .next (tracks_fail ..) fun _ => hend ..
  · exact .next (tracks_shortTag _) fun _ => hend ..

/-! ### Anchors and directives -/

theorem tracks_anchorName (reading : String) : Tracks text (anchorName reading) := by
  refine .look fun c hc => .next tracks_skip fun _ => .next (tracks_takeWhile _) fun name =>
    .look fun c' hc' => ?_
  split
  · exact tracks_fail ..
  · exact .done

theorem utf8Size_of_isDigit {c : Char} (h : c.isDigit) : c.utf8Size = 1 := by
  simp only [Char.isDigit, Bool.and_eq_true, decide_eq_true_eq] at h
  exact if_pos (UInt32.le_trans h.2 (by decide))

theorem byteLength_of_isDigit {cs : List Char} (h : ∀ c ∈ cs, c.isDigit) :
    byteLength cs = cs.length :=
  byteLength_eq_length_iff.mpr fun c hc => utf8Size_of_isDigit (h c hc)

/-- A number that is too long is met after nine of its digits. -/
theorem tracks_versionNumber (start : Mark) : Tracks text (versionNumber start) := by
  constructor
  intro c hc
  have hrun : versionNumber start c =
      (if 9 < (c.rest.takeWhile Char.isDigit).length then do
        set { c with mark := { c.mark with index := c.mark.index + 9, column := c.mark.column + 9 } }
        fail "while scanning a %YAML directive" start "found extremely long version number"
      else if (c.rest.takeWhile Char.isDigit).isEmpty then
        fail "while scanning a %YAML directive" start "did not find expected version number"
      else pure ((c.rest.takeWhile Char.isDigit).foldl
        (fun n d => 10 * n + (d.toNat - '0'.toNat)) 0) : Lex Nat) (c.skipWhile Char.isDigit) := rfl
  rw [hrun]
  by_cases hlong : 9 < (c.rest.takeWhile Char.isDigit).length
  · rw [if_pos hlong]
    obtain ⟨before, hbefore, hindex⟩ := hc
    have hnine : (c.rest.takeWhile Char.isDigit).take 9 <+: c.rest :=
      (List.take_prefix 9 _).trans (List.takeWhile_prefix _)
    have hdigits : ∀ d ∈ (c.rest.takeWhile Char.isDigit).take 9, d.isDigit = true := fun d hd =>
      List.mem_takeWhile_imp (List.mem_of_mem_take hd)
    refine ⟨before ++ (c.rest.takeWhile Char.isDigit).take 9, ?_, ?_⟩
    · exact (List.prefix_append_right_inj before).mpr hnine |>.trans hbefore
    · rw [byteLength_append, byteLength_of_isDigit hdigits, List.length_take, ← hindex]
      change c.mark.index + 9 = _
      omega
  · rw [if_neg hlong]
    refine Keeps.run (Q := fun _ => True) ?_ _ (hc.skipWhile _)
    split
    · exact tracks_fail ..
    · exact .done

theorem tracks_version (start : Mark) : Tracks text (version start) := by
  refine .next (tracks_takeWhile _) fun _ => .next (tracks_versionNumber _) fun major =>
    .look fun c hc => ?_
  split
  · exact .next tracks_skip fun _ => .next (tracks_versionNumber _) fun _ => .done
  · exact tracks_fail ..

theorem tracks_tagMeaning (start : Mark) : Tracks text (tagMeaning start) := by
  refine .next (tracks_takeWhile _) fun _ => .next (tracks_tagHandle ..) fun handle => ?_
  split
  · exact tracks_fail ..
  · refine .look fun c hc => ?_
    split
    · exact tracks_fail ..
    · refine .next (tracks_takeWhile _) fun _ => .next (tracks_tagText ..) fun meaning =>
        .look fun c hc => ?_
      split
      · exact .done
      · exact tracks_fail ..

theorem tracks_directiveName (start : Mark) : Tracks text (directiveName start) := by
  refine .next (tracks_takeWhile _) fun name => ?_
  split
  · exact tracks_fail ..
  · refine .look fun c hc => ?_
    split
    · exact tracks_fail ..
    · exact .done

theorem tracks_directive : Tracks text directive fun r => r.2.At text := by
  have hend (start : Mark) (kind : TokenKind) : Tracks text (do
      let stop := (← get).mark
      skipLineEnd
      if !(← get).endsLine then
        fail "while scanning a directive" start "did not find expected comment or line break"
      else
        modify Cursor.skipBreak
        pure (kind, stop)) fun r => r.2.At text := by
    refine .look fun c hc => .next tracks_skipLineEnd fun _ => .look fun c' hc' => ?_
    split
    · exact tracks_fail ..
    · exact .next tracks_skipBreak fun _ => .pure hc.mark
  refine .look fun c hc => .next tracks_skip fun _ => .next (tracks_directiveName _) fun name => ?_
  split
  · exact .next (tracks_version _) fun _ => hend ..
  · split
    · exact .next (tracks_tagMeaning _) fun _ => hend ..
    · exact .next (tracks_fail ..) fun _ => hend ..

/-! ### Scalars of a line -/

theorem tracks_gapFrom (start : Mark) (tabLimit : Int) (fuel : Nat) (g : Gap) :
    Tracks text (gapFrom start tabLimit fuel g) := by
  induction fuel generalizing g with
  | zero => exact .done
  | succ fuel ih =>
    refine .look fun c hc => ?_
    split
    · split
      · exact tracks_fail ..
      · exact .next tracks_skip fun _ => ih _
    · split
      · exact .done
      case h_2 h => exact .next (.set (hc.lineBreak? h)) fun _ => ih _

theorem tracks_gap (start : Mark) (tabLimit : Int) (broken : Bool) :
    Tracks text (gap start tabLimit broken) :=
  .look fun _ _ => tracks_gapFrom ..

theorem tracks_plainWord (inFlow : Bool) (start : Mark) (fuel : Nat) (word : List Char) :
    Tracks text (plainWord inFlow start fuel word) := by
  induction fuel generalizing word with
  | zero => exact .done
  | succ fuel ih =>
    refine .look fun c hc => ?_
    split
    · exact .done
    · split
      · exact tracks_fail ..
      · split
        · exact .done
        · exact .next tracks_skip fun _ => ih _

theorem tracks_plainFrom (indent : Int) (inFlow : Bool) (start : Mark) (fuel : Nat)
    (parts : List (List Char)) (g : Gap) {stop : Mark} (hstop : stop.At text) :
    Tracks text (plainFrom indent inFlow start fuel parts g stop) fun r => r.2.2.At text := by
  induction fuel generalizing parts g stop with
  | zero => exact .pure hstop
  | succ fuel ih =>
    refine .look fun c hc => ?_
    split
    · exact .pure hstop
    · refine .next (tracks_plainWord ..) fun word => .look fun c' hc' => ?_
      have hstop' : (if word.isEmpty then (parts, g.broken, stop)
          else (word :: g.text :: parts, false, c'.mark)).2.2.At text := by
        split
        · exact hstop
        · exact hc'.mark
      dsimp only
      split
      · exact .pure hstop'
      · refine .next (tracks_gap ..) fun g' => .look fun c'' hc'' => ?_
        split
        · exact .pure hstop'
        · exact ih _ _ hstop'

theorem tracks_plain (indent : Int) (inFlow : Bool) :
    Tracks text (plain indent inFlow) fun r => r.2.2.At text := by
  refine .look fun c hc => .bind (tracks_plainFrom _ _ _ _ _ _ hc.mark) fun r hr => ?_
  exact .pure hr

theorem tracks_escapedCode (reading : String) (start : Mark) (digits : List Nat) (code : Nat) :
    Tracks text (if h : code.isValidChar then do
        for _ in digits do skip
        pure (Char.ofNatAux code h)
      else fail reading start "found invalid Unicode character escape code") := by
  by_cases h : code.isValidChar
  · rw [dif_pos h]
    exact .next (.forIn fun _ _ => .next tracks_skip fun _ => .done) fun _ => .done
  · rw [dif_neg h]
    exact tracks_fail ..

theorem tracks_escape (start : Mark) : Tracks text (escape start) := by
  refine .look fun c hc => ?_
  split
  · exact .next tracks_skip fun _ => .next tracks_skip fun _ => .done
  · exact .next tracks_skip fun _ => .next tracks_skip fun _ => .look fun _ _ =>
      .ite (tracks_fail ..) (tracks_escapedCode ..)
  · exact tracks_fail ..

theorem tracks_quotedWord (single : Bool) (start : Mark) (fuel : Nat) (word : List Char) :
    Tracks text (quotedWord single start fuel word) := by
  induction fuel generalizing word with
  | zero => exact .done
  | succ fuel ih =>
    refine .look fun c hc => ?_
    split
    · exact .done
    · split
      · exact .next tracks_skip fun _ => .next tracks_skip fun _ => ih _
      · refine .ite .done (.ite (.ite ?_ ?_) ?_)
        · exact .next tracks_skip fun _ => .next tracks_skipBreak fun _ => .done
        · exact .next (tracks_escape _) fun _ => ih _
        · exact .next tracks_skip fun _ => ih _

theorem tracks_quotedFrom (single : Bool) (start : Mark) (fuel : Nat) (parts : List (List Char)) :
    Tracks text (quotedFrom single start fuel parts) := by
  induction fuel generalizing parts with
  | zero => exact .done
  | succ fuel ih =>
    refine .look fun c hc => ?_
    split
    · exact tracks_fail ..
    · split
      · exact tracks_fail ..
      · refine .next (tracks_quotedWord ..) fun r => .look fun c' hc' => .ite .done ?_
        exact .next (tracks_gap ..) fun _ => ih _

theorem tracks_quoted (single : Bool) : Tracks text (quoted single) :=
  .look fun _ _ => .next tracks_skip fun _ => .next (tracks_quotedFrom ..) fun _ =>
    .next tracks_skip fun _ => .done

/-! ### Block scalars -/

theorem tracks_chomping? : Tracks text chomping? := by
  refine .look fun c hc => ?_
  split
  · exact .next tracks_skip fun _ => .done
  · split
    · exact .next tracks_skip fun _ => .done
    · exact .done

theorem tracks_indentation? (start : Mark) : Tracks text (indentation? start) := by
  refine .look fun c hc => ?_
  split
  · exact .done
  · split
    · exact tracks_fail ..
    · exact .next tracks_skip fun _ => .done

theorem tracks_blockHeader (start : Mark) : Tracks text (blockHeader start) := by
  refine .next tracks_chomping? fun chomping => ?_
  split
  · exact .next (tracks_indentation? _) fun _ => .done
  · refine .next (tracks_indentation? _) fun extra => ?_
    split
    · exact .done
    · exact .next tracks_chomping? fun _ => .done

theorem tracks_blockBreaksFrom (start : Mark) (indent : Option Nat) (fuel : Nat)
    (breaks : List Char) (deepest : Nat) :
    Tracks text (blockBreaksFrom start indent fuel breaks deepest) := by
  induction fuel generalizing breaks deepest with
  | zero => exact .done
  | succ fuel ih =>
    refine .look fun c hc => ?_
    dsimp only
    split
    · exact .next tracks_skip fun _ => ih _ _
    · split
      · exact tracks_fail ..
      · split
        · exact .done
        case h_2 h => exact .next (.set (hc.lineBreak? h)) fun _ => ih _ _

theorem tracks_blockBreaks (start : Mark) (indent : Option Nat) :
    Tracks text (blockBreaks start indent) :=
  .look fun _ _ => tracks_blockBreaksFrom ..

theorem tracks_blockLines (folded : Bool) (start : Mark) (indent fuel : Nat) (t : BlockText) :
    Tracks text (blockLines folded start indent fuel t) := by
  induction fuel generalizing t with
  | zero => exact .done
  | succ fuel ih =>
    refine .look fun c hc => ?_
    split
    · exact .done
    · exact .next (tracks_takeWhile _) fun _ => .look fun _ _ => .next tracks_skipBreak fun _ =>
        .next (tracks_blockBreaks ..) fun _ => ih _

theorem tracks_block (folded : Bool) (outer : Int) : Tracks text (block folded outer) := by
  refine .look fun c hc => .next tracks_skip fun _ => .next (tracks_blockHeader _) fun header =>
    .next tracks_skipLineEnd fun _ => .look fun c' hc' => ?_
  split
  · exact tracks_fail ..
  · exact .next tracks_skipBreak fun _ => .next (tracks_blockBreaks ..) fun _ => .look fun _ _ =>
      .next (tracks_blockLines ..) fun _ => .done

end Lex

end Yaml

end Es5
