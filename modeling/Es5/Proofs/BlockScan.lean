import Es5.Fixture.Block
import Es5.Proofs.Pattern

/-!
# The metadata block as a scan and as a pattern

A plain scan takes the first opening mark that a line break follows, and then the first closing mark.
The block is also what a pattern matches whose text is lazy and in front of an optional carriage
return and an optional line feed. The pattern may go back on an opening mark, and it decides on the
last line break while it looks for the closing mark; it still finds the same block in every source.

* `Shortest`, `OpensAfter`, `ClosesAfter`: the first place of a mark.
* `FirstOpening`, `FirstClosing`, `DropsBreak`, `FirstBlock`, `NoBlock`: the plain scan.
* **`Block.find?_eq_some_iff`**, `Block.find?_eq_none_iff`: the block of a source is that of the
  plain scan.
* `blockItems`, `Block.ofMatch`: the pattern.
* `head?_ways_lazy`, **`search_blockItems`**: the block of a source is that of the pattern.
-/

namespace Es5.Fixture

open Text

/-! ## The plain scan -/

/-- A text with a property that no shorter text has. -/
def Shortest (P : List Char → Prop) (cs : List Char) : Prop :=
  P cs ∧ ∀ ds, P ds → cs.length ≤ ds.length

theorem exists_shortest {P : List Char → Prop} {cs : List Char} (h : P cs) :
    ∃ ds, Shortest P ds := by
  induction hn : cs.length using Nat.strongRecOn generalizing cs with
  | _ n ih =>
    by_cases hless : ∃ ds, P ds ∧ ds.length < cs.length
    · obtain ⟨ds, hds, hlt⟩ := hless
      exact ih ds.length (hn ▸ hlt) hds rfl
    · exact ⟨cs, h, fun ds hds => Nat.le_of_not_lt fun hlt => hless ⟨ds, hds, hlt⟩⟩

theorem shortest_of_nil {P : List Char → Prop} {cs : List Char} (h : P []) :
    Shortest P cs ↔ cs = [] := by
  constructor
  · exact fun hcs => List.length_eq_zero_iff.mp (Nat.le_zero.mp (hcs.2 _ h))
  · rintro rfl
    exact ⟨h, by simp⟩

/-- The shortest text in front of something begins with the first character, if it is not empty. -/
theorem shortest_cons {P Q : List Char → Prop} {c : Char} {cs : List Char} (hnil : ¬P [])
    (hcons : ∀ d ds, P (d :: ds) ↔ d = c ∧ Q ds) :
    Shortest P cs ↔ ∃ ds, cs = c :: ds ∧ Shortest Q ds := by
  constructor
  · rintro ⟨hcs, hmin⟩
    obtain _ | ⟨d, ds⟩ := cs
    · exact absurd hcs hnil
    · obtain ⟨rfl, hds⟩ := (hcons _ _).mp hcs
      exact ⟨ds, rfl, hds, fun es hes => by simpa using hmin _ ((hcons _ _).mpr ⟨rfl, hes⟩)⟩
  · rintro ⟨ds, rfl, hds, hmin⟩
    refine ⟨(hcons _ _).mpr ⟨rfl, hds⟩, fun es hes => ?_⟩
    obtain _ | ⟨e, es⟩ := es
    · exact absurd hes hnil
    · simpa using hmin es ((hcons _ _).mp hes).2

/-- The breaks that make a mark an opening one: a line feed, alone or after a carriage return. -/
def lineBreaks : List (List Char) := [['\n'], ['\r', '\n']]

/-- An opening mark with its line break follows a part of the source. -/
def OpensAfter (source lead : List Char) : Prop :=
  ∃ lineBreak ∈ lineBreaks, ∃ rest, source = lead ++ opener ++ lineBreak ++ rest

/-- A closing mark follows a part of the source. -/
def ClosesAfter (source raw : List Char) : Prop := ∃ after, source = raw ++ closer ++ after

/-- A source is cut after the first opening mark that a line break follows, and that break. -/
def FirstOpening (source before rest : List Char) : Prop :=
  source = before ++ rest ∧ ∃ lead, Shortest (OpensAfter source) lead ∧
    ∃ lineBreak ∈ lineBreaks, before = lead ++ opener ++ lineBreak

/-- A source is cut around the first closing mark. -/
def FirstClosing (source raw after : List Char) : Prop :=
  source = raw ++ closer ++ after ∧ Shortest (ClosesAfter source) raw

/-- A text without the line feed with its carriage return, or the one of them, that ends it. -/
inductive DropsBreak : List Char → List Char → Prop
  | returnFeed (text : List Char) : DropsBreak (text ++ ['\r', '\n']) text
  | feed (text : List Char) (h : text.getLast? ≠ some '\r') : DropsBreak (text ++ ['\n']) text
  | return (text : List Char) : DropsBreak (text ++ ['\r']) text
  | none (text : List Char) (h : ∀ c ∈ text.getLast?, c ≠ '\r' ∧ c ≠ '\n') : DropsBreak text text

theorem DropsBreak.prefix {raw text : List Char} (h : DropsBreak raw text) : text <+: raw := by
  cases h with
  | none => exact List.prefix_rfl
  | _ => exact List.prefix_append ..

/-- A block reaches from the first opening mark to the first closing mark after it. -/
def FirstBlock (source : List Char) (b : Block) : Prop :=
  ∃ rest raw, FirstOpening source b.before rest ∧ FirstClosing rest raw b.after ∧
    DropsBreak raw b.text

/-- There is no opening mark, or no closing mark after the first opening mark. -/
def NoBlock (source : List Char) : Prop :=
  (∀ lead, ¬OpensAfter source lead) ∨
    ∃ before rest, FirstOpening source before rest ∧ ∀ raw, ¬ClosesAfter rest raw

/-! ### The marks -/

theorem afterMark?_eq_some_iff {mark cs rest : List Char} :
    afterMark? mark cs = some rest ↔ cs = mark ++ rest := by
  grind [afterMark?, List.isPrefixOf_iff_prefix, List.prefix_iff_eq_append]

theorem opening?_eq_some_iff {cs mark rest : List Char} :
    opening? cs = some (mark, rest) ↔
      cs = mark ++ rest ∧ ∃ lineBreak ∈ lineBreaks, mark = opener ++ lineBreak := by
  constructor
  · unfold opening?
    split <;> rename_i h
    · rintro ⟨rfl, rfl⟩
      exact ⟨by simpa using afterMark?_eq_some_iff.mp h, ['\n'], by simp [lineBreaks], rfl⟩
    · rintro ⟨rfl, rfl⟩
      exact ⟨by simpa using afterMark?_eq_some_iff.mp h, ['\r', '\n'], by simp [lineBreaks], rfl⟩
    · simp
  · rintro ⟨rfl, lineBreak, hbreak, rfl⟩
    have hafter := afterMark?_eq_some_iff.mpr (List.append_assoc opener lineBreak rest)
    simp only [lineBreaks, List.mem_cons, List.not_mem_nil, or_false] at hbreak
    obtain rfl | rfl := hbreak <;> rw [opening?, hafter] <;> rfl

theorem opensAfter_nil_iff {source : List Char} :
    OpensAfter source [] ↔ (opening? source).isSome := by
  simp only [Option.isSome_iff_exists, Prod.exists, opening?_eq_some_iff, OpensAfter]
  grind

theorem opensAfter_cons {c d : Char} {cs ds : List Char} :
    OpensAfter (c :: cs) (d :: ds) ↔ d = c ∧ OpensAfter cs ds := by
  grind [OpensAfter]

theorem closesAfter_nil_iff {source : List Char} :
    ClosesAfter source [] ↔ (afterMark? closer source).isSome := by
  simp only [Option.isSome_iff_exists, afterMark?_eq_some_iff, ClosesAfter, List.nil_append]

theorem closesAfter_cons {c d : Char} {cs ds : List Char} :
    ClosesAfter (c :: cs) (d :: ds) ↔ d = c ∧ ClosesAfter cs ds := by
  grind [ClosesAfter]

theorem splitOpening?_eq_some_iff {source before rest : List Char} :
    splitOpening? source = some (before, rest) ↔ FirstOpening source before rest := by
  unfold FirstOpening
  induction source generalizing before rest with
  | nil =>
    have (lead lineBreak : List Char) : [] ≠ lead ++ opener ++ lineBreak ++ rest := by
      simp [opener]
    grind [splitOpening?]
  | cons c cs ih =>
    cases h : opening? (c :: cs) with
    | some cut =>
      have hnil : OpensAfter (c :: cs) [] := opensAfter_nil_iff.mpr (by simp [h])
      simp only [splitOpening?, h]
      rw [← h, opening?_eq_some_iff]
      simp [shortest_of_nil hnil]
    | none =>
      have hnil : ¬OpensAfter (c :: cs) [] := by simp [opensAfter_nil_iff, h]
      simp only [splitOpening?, h, shortest_cons hnil fun d ds => opensAfter_cons,
        Option.map_eq_some_iff, Prod.exists, ih, Prod.mk.injEq]
      constructor
      · rintro ⟨_, _, ⟨rfl, lead, hlead, lineBreak, hbreak, rfl⟩, rfl, rfl⟩
        exact ⟨rfl, c :: lead, ⟨lead, rfl, hlead⟩, lineBreak, hbreak, rfl⟩
      · rintro ⟨hcs, _, ⟨lead, rfl, hlead⟩, lineBreak, hbreak, rfl⟩
        exact ⟨_, rest, ⟨(List.cons.inj hcs).2, lead, hlead, lineBreak, hbreak, rfl⟩, rfl, rfl⟩

theorem splitClosing?_eq_some_iff {rest raw after : List Char} :
    splitClosing? rest = some (raw, after) ↔ FirstClosing rest raw after := by
  unfold FirstClosing
  induction rest generalizing raw after with
  | nil => simp [splitClosing?, closer]
  | cons c cs ih =>
    cases h : afterMark? closer (c :: cs) with
    | some tail =>
      have hnil : ClosesAfter (c :: cs) [] := closesAfter_nil_iff.mpr (by simp [h])
      simp only [splitClosing?, h, shortest_of_nil hnil, Option.some.injEq, Prod.mk.injEq]
      rw [← Option.some_inj (a := tail), ← h, afterMark?_eq_some_iff]
      grind
    | none =>
      have hnil : ¬ClosesAfter (c :: cs) [] := by simp [closesAfter_nil_iff, h]
      simp only [splitClosing?, h, shortest_cons hnil fun d ds => closesAfter_cons,
        Option.map_eq_some_iff, Prod.exists, ih, Prod.mk.injEq]
      constructor
      · rintro ⟨raw, _, ⟨rfl, hraw⟩, rfl, rfl⟩
        exact ⟨rfl, raw, rfl, hraw⟩
      · rintro ⟨hcs, raw, rfl, hraw⟩
        exact ⟨raw, after, ⟨(List.cons.inj hcs).2, hraw⟩, rfl, rfl⟩

theorem splitOpening?_eq_none_iff {source : List Char} :
    splitOpening? source = none ↔ ∀ lead, ¬OpensAfter source lead := by
  simp only [Option.eq_none_iff_forall_ne_some, Prod.forall, Ne, splitOpening?_eq_some_iff]
  constructor
  · intro hnone lead hlead
    obtain ⟨lead, hfirst⟩ := exists_shortest hlead
    obtain ⟨lineBreak, hbreak, rest, hsource⟩ := hfirst.1
    exact hnone _ rest ⟨hsource, lead, hfirst, lineBreak, hbreak, rfl⟩
  · rintro hnone before rest ⟨-, lead, hlead, -⟩
    exact hnone lead hlead.1

theorem splitClosing?_eq_none_iff {rest : List Char} :
    splitClosing? rest = none ↔ ∀ raw, ¬ClosesAfter rest raw := by
  simp only [Option.eq_none_iff_forall_ne_some, Prod.forall, Ne, splitClosing?_eq_some_iff]
  constructor
  · intro hnone raw hraw
    obtain ⟨raw, hfirst⟩ := exists_shortest hraw
    obtain ⟨after, hrest⟩ := hfirst.1
    exact hnone raw after ⟨hrest, hfirst⟩
  · rintro hnone raw after ⟨-, hraw⟩
    exact hnone raw hraw.1

/-! ### The last line break -/

theorem dropLastBreak_drops (raw : List Char) : DropsBreak raw (dropLastBreak raw) := by
  obtain ⟨r, rfl⟩ : ∃ r : List Char, raw = r.reverse := ⟨raw.reverse, by simp⟩
  unfold dropLastBreak
  rw [List.reverse_reverse]
  split
  case h_1 r => simpa using DropsBreak.returnFeed r.reverse
  case h_2 r h => simpa using DropsBreak.feed r.reverse (by cases r <;> simp_all)
  case h_3 r => simpa using DropsBreak.return r.reverse
  case h_4 h => exact DropsBreak.none r.reverse (by cases r <;> simp_all)

theorem DropsBreak.unique {raw text : List Char} (h : DropsBreak raw text) :
    dropLastBreak raw = text := by
  unfold dropLastBreak
  cases h with
  | returnFeed => simp
  | feed _ h =>
    rw [List.getLast?_eq_head?_reverse] at h
    simp only [List.reverse_append, List.reverse_singleton, List.singleton_append]
    split <;> grind
  | «return» => simp
  | none _ h =>
    rw [List.getLast?_eq_head?_reverse] at h
    split <;> simp_all

theorem dropsBreak_iff {raw text : List Char} : DropsBreak raw text ↔ dropLastBreak raw = text :=
  ⟨DropsBreak.unique, fun h => h ▸ dropLastBreak_drops raw⟩

/-! ### The block -/

/-- **The block of a source is that of the plain scan.** -/
theorem Block.find?_eq_some_iff {source : List Char} {b : Block} :
    Block.find? source = some b ↔ FirstBlock source b := by
  simp only [Block.find?, FirstBlock, bind, Option.bind_eq_some_iff, Prod.exists, pure,
    Option.some.injEq, splitOpening?_eq_some_iff, splitClosing?_eq_some_iff, dropsBreak_iff]
  constructor
  · rintro ⟨before, rest, hopen, raw, after, hclose, rfl⟩
    exact ⟨rest, raw, hopen, hclose, rfl⟩
  · rintro ⟨rest, raw, hopen, hclose, htext⟩
    exact ⟨b.before, rest, hopen, raw, b.after, hclose, by rw [htext]⟩

theorem Block.find?_eq_none_iff {source : List Char} :
    Block.find? source = none ↔ NoBlock source := by
  cases hopen : splitOpening? source with
  | none =>
    have hnone := splitOpening?_eq_none_iff.mp hopen
    exact iff_of_true (by simp [Block.find?, hopen]) (.inl hnone)
  | some cut =>
    obtain ⟨before, rest⟩ := cut
    have hfirst := splitOpening?_eq_some_iff.mp hopen
    have hfind : Block.find? source = none ↔ ∀ raw, ¬ClosesAfter rest raw := by
      rw [← splitClosing?_eq_none_iff]
      cases hclose : splitClosing? rest <;> simp [Block.find?, hopen, hclose]
    rw [hfind]
    constructor
    · exact fun hnone => .inr ⟨before, rest, hfirst, hnone⟩
    · rintro (hnone | ⟨_, _, hother, hnone⟩)
      · obtain ⟨-, lead, hlead, -⟩ := hfirst
        exact absurd hlead.1 (hnone lead)
      · have hsame := (splitOpening?_eq_some_iff.mpr hother).symm.trans hopen
        simp only [Option.some.injEq, Prod.mk.injEq] at hsame
        exact hsame.2 ▸ hnone

/-- The carriage return goes with the mark, and of two opening marks the first counts. -/
example : Block.find? "/*--- /*---\n/*---\na\r---*/---*/".toList =
    some ⟨"/*--- /*---\n".toList, "/*---\na".toList, "---*/".toList⟩ := by decide

/-! ## The pattern -/

/-- What a block may end with: an optional carriage return, an optional line feed, a closing mark. -/
def closingItems : List Item := [.optional '\r', .optional '\n', .literal closer]

/-- The pattern of a block: an opening mark with its line break, then as little as possible. -/
def blockItems : List Item :=
  .literal opener :: .optional '\r' :: .literal ['\n'] :: .few (fun _ => true) :: closingItems

/-- The block of a match: the text is what the lazy item takes. -/
def Block.ofMatch (m : Match) : Block where
  before := m.before ++ (m.pieces.take 3).flatten
  text := m.pieces[3]?.getD []
  after := m.after

/-- What follows the end of a block at the start of some characters. -/
def closing? (last : Option Char) (cs : List Char) : Option (List Char) :=
  (ways closingItems last cs).head?.map Prod.snd

theorem dropsBreak_nil_iff {raw : List Char} :
    DropsBreak raw [] ↔
      ∃ cr lf, (cr = [] ∨ cr = ['\r']) ∧ (lf = [] ∨ lf = ['\n']) ∧ raw = cr ++ lf := by
  constructor
  · intro h
    generalize htext : ([] : List Char) = text at h
    cases h <;> subst htext
    · exact ⟨['\r'], ['\n'], by simp⟩
    · exact ⟨[], ['\n'], by simp⟩
    · exact ⟨['\r'], [], by simp⟩
    · exact ⟨[], [], by simp⟩
  · rintro ⟨_, _, rfl | rfl, rfl | rfl, rfl⟩
    · exact .none [] (by simp)
    · exact .feed [] (by simp)
    · exact .return []
    · exact .returnFeed []

/-- A closing mark follows only one of the line breaks that are dropped. -/
theorem DropsBreak.eq_of_append {raw raw' after after' : List Char} (h : DropsBreak raw [])
    (h' : DropsBreak raw' []) (heq : raw ++ closer ++ after = raw' ++ closer ++ after') :
    after = after' := by
  obtain ⟨_, _, rfl | rfl, rfl | rfl, rfl⟩ := dropsBreak_nil_iff.mp h <;>
    obtain ⟨_, _, rfl | rfl, rfl | rfl, rfl⟩ := dropsBreak_nil_iff.mp h' <;>
    simp_all [closer]

/-- A character in front stays in front, unless it belongs to the line break that is dropped. -/
theorem DropsBreak.cons {c : Char} {raw text : List Char} (h : DropsBreak raw text)
    (hc : ¬DropsBreak (c :: raw) []) : DropsBreak (c :: raw) (c :: text) := by
  cases h with
  | returnFeed => exact .returnFeed (c :: text)
  | feed _ h =>
    refine .feed (c :: text) ?_
    cases text with
    | nil =>
      rintro ⟨⟩
      exact hc (.returnFeed [])
    | cons d ds => simpa using h
  | «return» => exact .return (c :: text)
  | none _ h =>
    refine .none (c :: raw) ?_
    cases raw with
    | nil =>
      rintro _ ⟨⟩
      constructor <;> rintro rfl
      · exact hc (.return [])
      · exact hc (.feed [] (by simp))
    | cons d ds => simpa using h

theorem mem_ways_closing {last : Option Char} {pieces : List (List Char)} {after cs : List Char} :
    (pieces, after) ∈ ways closingItems last cs ↔ ∃ cr lf, (cr = [] ∨ cr = ['\r']) ∧
      (lf = [] ∨ lf = ['\n']) ∧ pieces = [cr, lf, closer] ∧ cs = cr ++ lf ++ closer ++ after := by
  simp only [mem_ways, closingItems, fits_cons, fits_nil, Item.Takes]
  constructor
  · rintro ⟨rfl, cr, _, rfl, hcr, lf, _, rfl, hlf, _, _, rfl, rfl, rfl⟩
    exact ⟨cr, lf, hcr, hlf, rfl, by simp⟩
  · rintro ⟨cr, lf, hcr, hlf, rfl, rfl⟩
    exact ⟨by simp, cr, _, rfl, hcr, lf, _, rfl, hlf, closer, _, rfl, rfl, rfl⟩

/-- **A block may end where a closing mark follows nothing or a line break that is dropped.** -/
theorem closing?_eq_some_iff {last : Option Char} {cs after : List Char} :
    closing? last cs = some after ↔ ∃ raw, DropsBreak raw [] ∧ cs = raw ++ closer ++ after := by
  have hsome {after : List Char} (h : closing? last cs = some after) :
      ∃ raw, DropsBreak raw [] ∧ cs = raw ++ closer ++ after := by
    obtain ⟨⟨pieces, _⟩, hway, rfl⟩ := Option.map_eq_some_iff.mp h
    obtain ⟨cr, lf, hcr, hlf, -, hcs⟩ := mem_ways_closing.mp (List.mem_of_head? hway)
    exact ⟨cr ++ lf, dropsBreak_nil_iff.mpr ⟨cr, lf, hcr, hlf, rfl⟩, hcs⟩
  refine ⟨hsome, ?_⟩
  rintro ⟨raw, hraw, rfl⟩
  obtain ⟨cr, lf, hcr, hlf, rfl⟩ := dropsBreak_nil_iff.mp hraw
  have hway : ([cr, lf, closer], after) ∈ ways closingItems last (cr ++ lf ++ closer ++ after) :=
    mem_ways_closing.mpr ⟨cr, lf, hcr, hlf, rfl, rfl⟩
  cases h : closing? last (cr ++ lf ++ closer ++ after) with
  | none => simp_all [closing?]
  | some after' =>
    obtain ⟨raw', hraw', heq⟩ := hsome h
    rw [hraw.eq_of_append hraw' heq]

theorem splitClosing?_of_closing? {last : Option Char} {cs after : List Char}
    (h : closing? last cs = some after) :
    ∃ raw, splitClosing? cs = some (raw, after) ∧ dropLastBreak raw = [] := by
  obtain ⟨raw, hraw, rfl⟩ := closing?_eq_some_iff.mp h
  obtain ⟨_, _, rfl | rfl, rfl | rfl, rfl⟩ := dropsBreak_nil_iff.mp hraw <;>
    exact ⟨_, by simp [splitClosing?, afterMark?, closer], hraw.unique⟩

/-- Where no block may end, the text of the block goes on. -/
theorem splitClosing?_cons_of_closing? {last : Option Char} {c : Char} {cs : List Char}
    (h : closing? last (c :: cs) = none) :
    (splitClosing? (c :: cs)).map (fun (raw, after) => (some (dropLastBreak raw), after)) =
      (splitClosing? cs).map fun (raw, after) => (some (c :: dropLastBreak raw), after) := by
  have hnot (raw after : List Char) (hraw : DropsBreak raw []) : c :: cs ≠ raw ++ closer ++ after :=
    fun heq => by
      have hclosed : closing? last (c :: cs) = some after :=
        closing?_eq_some_iff.mpr ⟨raw, hraw, heq⟩
      simp [h] at hclosed
  have hmark : afterMark? closer (c :: cs) = none := by
    refine Option.eq_none_iff_forall_ne_some.mpr fun rest hrest => ?_
    exact hnot [] rest (.none [] (by simp)) (afterMark?_eq_some_iff.mp hrest)
  cases hclose : splitClosing? cs with
  | none => simp [splitClosing?, hmark, hclose]
  | some cut =>
    obtain ⟨raw, after⟩ := cut
    obtain ⟨hcs, -⟩ := splitClosing?_eq_some_iff.mp hclose
    have hcons := (dropLastBreak_drops raw).cons fun hraw =>
      hnot (c :: raw) after hraw (by simp [hcs])
    simp [splitClosing?, hmark, hclose, hcons.unique]

/-- **A lazy text with a line break that may end it is what the first closing mark ends.** -/
theorem head?_ways_lazy (last : Option Char) (cs : List Char) :
    (ways (.few (fun _ => true) :: closingItems) last cs).head?.map
        (fun (pieces, after) => (pieces.head?, after)) =
      (splitClosing? cs).map fun (raw, after) => (some (dropLastBreak raw), after) := by
  induction cs generalizing last with
  | nil => simp [splitClosing?, head?_ways_cons, Item.ways, cuts, closingItems, closer]
  | cons c cs ih =>
    rw [head?_ways_few, if_pos rfl]
    cases hway : (ways closingItems last (c :: cs)).head? with
    | some way =>
      have hclosed : closing? last (c :: cs) = some way.2 := by simp [closing?, hway]
      obtain ⟨raw, hclose, hraw⟩ := splitClosing?_of_closing? hclosed
      simp [hclose, hraw]
    | none =>
      have hend : closing? last (c :: cs) = none := by simp only [closing?, hway, Option.map_none]
      have hlonger := congrArg (Option.map fun cut => (cut.1.map (c :: ·), cut.2)) (ih (some c))
      rw [splitClosing?_cons_of_closing? hend]
      simpa [Function.comp_def] using hlonger

theorem flatten_of_fits_block {last : Option Char} {pieces : List (List Char)} {after : List Char}
    (h : Fits blockItems last pieces after) :
    ∃ lineBreak ∈ lineBreaks, ∃ raw, pieces.flatten = opener ++ lineBreak ++ raw ++ closer := by
  simp only [blockItems, closingItems, fits_cons, fits_nil, Item.Takes] at h
  obtain ⟨_, _, rfl, rfl, cr, _, rfl, hcr, _, _, rfl, rfl, text, _, rfl, -, cr', _, rfl, -, lf, _,
    rfl, -, _, _, rfl, rfl, rfl⟩ := h
  exact ⟨cr ++ ['\n'], by obtain rfl | rfl := hcr <;> simp [lineBreaks], text ++ cr' ++ lf, by simp⟩

theorem head?_ways_block (last : Option Char) (cs : List Char) :
    (ways blockItems last cs).head?.map (fun (pieces, after) => Block.ofMatch ⟨[], pieces, after⟩) =
      (opening? cs).bind fun (mark, rest) =>
        (splitClosing? rest).map fun (raw, after) => ⟨mark, dropLastBreak raw, after⟩ := by
  cases hopen : opening? cs with
  | none =>
    have hnil : ways blockItems last cs = [] := by
      refine List.eq_nil_iff_forall_not_mem.mpr fun ⟨pieces, after⟩ hway => ?_
      obtain ⟨rfl, hfit⟩ := mem_ways.mp hway
      obtain ⟨lineBreak, hbreak, raw, hflat⟩ := flatten_of_fits_block hfit
      have hopens : OpensAfter (pieces.flatten ++ after) [] :=
        ⟨lineBreak, hbreak, raw ++ closer ++ after, by simp [hflat]⟩
      simp [opensAfter_nil_iff, hopen] at hopens
    simp [hnil]
  | some cut =>
    obtain ⟨mark, rest⟩ := cut
    obtain ⟨rfl, lineBreak, hbreak, rfl⟩ := opening?_eq_some_iff.mp hopen
    have hlazy (last : Option Char) :=
      congrArg (Option.map fun cut => (⟨opener ++ lineBreak, cut.1.getD [], cut.2⟩ : Block))
        (head?_ways_lazy last rest)
    simp only [lineBreaks, List.mem_cons, List.not_mem_nil, or_false] at hbreak
    rw [List.append_assoc, blockItems, head?_ways_literal]
    obtain rfl | rfl := hbreak
    · rw [head?_ways_optional_of_ne (by simp), head?_ways_literal]
      simpa [Function.comp_def, Block.ofMatch, List.head?_eq_getElem?] using hlazy _
    · have hnil (items : List Item) (last : Option Char) :
          ways (.literal ['\n'] :: items) last ('\r' :: '\n' :: rest) = [] :=
        ways_literal_of_not_prefix (by simp)
      rw [List.cons_append, head?_ways_optional, head?_ways_literal, List.cons_append,
        List.nil_append, hnil]
      simpa [Function.comp_def, Block.ofMatch, List.head?_eq_getElem?] using hlazy _

theorem length_le_of_mem_lineBreaks {lineBreak : List Char} (h : lineBreak ∈ lineBreaks) :
    1 ≤ lineBreak.length ∧ lineBreak.length ≤ 2 := by
  simp only [lineBreaks, List.mem_cons, List.not_mem_nil, or_false] at h
  obtain rfl | rfl := h <;> simp

/-- The pattern finds no block after an opening mark either that no closing mark follows. -/
theorem search_eq_none {last : Option Char} {c : Char} {cs mark rest : List Char}
    (hopen : opening? (c :: cs) = some (mark, rest)) (hclose : splitClosing? rest = none) :
    search blockItems last cs = none := by
  refine Option.not_isSome_iff_eq_none.mp fun hfound => ?_
  obtain ⟨before, pieces, after, rfl, hfit⟩ := search_isSome_iff.mp hfound
  obtain ⟨lineBreak', hbreak', raw, hflat⟩ := flatten_of_fits_block hfit
  obtain ⟨hcs, lineBreak, hbreak, rfl⟩ := opening?_eq_some_iff.mp hopen
  have hlater : c :: (before ++ pieces.flatten ++ after) =
      c :: (before ++ opener ++ lineBreak') ++ (raw ++ closer ++ after) := by simp [hflat]
  -- A later opening mark ends after the line break of this one.
  have hshort : (raw ++ closer ++ after).length ≤ rest.length := by
    have hlength := congrArg List.length (hlater.symm.trans hcs)
    have := length_le_of_mem_lineBreaks hbreak
    have := length_le_of_mem_lineBreaks hbreak'
    simp only [List.length_append, List.length_cons] at hlength ⊢
    omega
  obtain ⟨front, hrest⟩ := List.suffix_of_suffix_length_le ⟨_, hlater.symm⟩ ⟨_, hcs.symm⟩ hshort
  exact splitClosing?_eq_none_iff.mp hclose (front ++ raw) ⟨after, by simp [← hrest]⟩

theorem Block.find?_cons {c : Char} {cs : List Char} (h : opening? (c :: cs) = none) :
    Block.find? (c :: cs) = (Block.find? cs).map fun b => { b with before := c :: b.before } := by
  cases hopen : splitOpening? cs with
  | none => simp [Block.find?, splitOpening?, h, hopen]
  | some cut =>
    cases hclose : splitClosing? cut.2 <;>
      simp [Block.find?, splitOpening?, h, hopen, hclose]

/-- **The block of a source is that of the pattern.** -/
theorem search_blockItems (last : Option Char) (source : List Char) :
    (search blockItems last source).map Block.ofMatch = Block.find? source := by
  induction source generalizing last with
  | nil =>
    have hhere := head?_ways_block last []
    simpa [search, Block.find?, splitOpening?, opening?, afterMark?, opener] using hhere
  | cons c cs ih =>
    have hhere := head?_ways_block last (c :: cs)
    rw [search_cons]
    cases hopen : opening? (c :: cs) with
    | none =>
      have hnil : (ways blockItems last (c :: cs)).head? = none := by simpa [hopen] using hhere
      rw [hnil, Block.find?_cons hopen, ← ih (some c)]
      simp [Block.ofMatch, Function.comp_def]
    | some cut =>
      cases hclose : splitClosing? cut.2 with
      | none =>
        have hnil : (ways blockItems last (c :: cs)).head? = none := by
          simpa [hopen, hclose] using hhere
        simp [hnil, search_eq_none hopen hclose, Block.find?, splitOpening?, hopen, hclose]
      | some ending =>
        cases hway : (ways blockItems last (c :: cs)).head? with
        | none => simp [hway, hopen, hclose] at hhere
        | some way => simpa [Block.find?, splitOpening?, hopen, hclose, hway] using hhere

end Es5.Fixture
