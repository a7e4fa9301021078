import Es5.Fixture.Source
import Es5.Proofs.BlockScan
import Es5.Proofs.Stripped

/-!
# The form of a fixture

What reading a source gives is settled by the first metadata block and by the text after that block.
The reasons why a source is no fixture come in an order, and neither the text of the block nor what
stands before it counts as a definition or a call.

* `Spaces`, `WordBreak`, `TestCaseDefined`, `RunnerCalled`: the form of a body.
* `definesTestCase_iff`, `callsRunner_iff`: bodies are checked for this form.
* `testCaseItems`, `runnerItems`, `search_testCaseItems`, `search_runnerItems`: the form as patterns.
* `Trimmed`, `MetadataRead`, `SourceRead`: what is read from a source, by its block and its body.
* `readMetadata_iff`, `Source.read_iff`: reading gives exactly this.
* **`Source.read_first_block`**: the whole of it, with the block as a pattern and as a scan.
-/

namespace Es5.Fixture

open Text

/-! ## The form of a body -/

/-- White space, or nothing. -/
def Spaces (cs : List Char) : Prop := ∀ c ∈ cs, isSpace c

/-- A word may begin after some characters. -/
def WordBreak (before : List Char) : Prop := ∀ c ∈ before.getLast?, isWordChar c = false

/-- The word `function`, white space and `testcase(`, which may be spaced, where a word may begin. -/
def TestCaseDefined (body : List Char) : Prop :=
  ∃ before gap gap' after, WordBreak before ∧ gap ≠ [] ∧ Spaces gap ∧ Spaces gap' ∧
    body = before ++ "function".toList ++ gap ++ "testcase".toList ++ gap' ++ ['('] ++ after

/-- The text `runTestCase(testcase)`, which may be spaced, where a word may begin. -/
def RunnerCalled (body : List Char) : Prop :=
  ∃ before gap gap' gap'' after, WordBreak before ∧ Spaces gap ∧ Spaces gap' ∧ Spaces gap'' ∧
    body = before ++ "runTestCase".toList ++ gap ++ ['('] ++ gap' ++ "testcase".toList ++ gap'' ++
      [')'] ++ after

/-! ### The checks -/

theorem anyWordStart_iff {p : List Char → Bool} {inWord : Bool} {cs : List Char} :
    anyWordStart p inWord cs ↔ ∃ before rest, cs = before ++ rest ∧
      (before.getLast?.map isWordChar).getD inWord = false ∧ p rest := by
  induction cs generalizing inWord with
  | nil =>
    simp only [anyWordStart, Bool.and_eq_true, Bool.not_eq_true', List.nil_eq_append_iff]
    constructor
    · exact fun ⟨hin, hp⟩ => ⟨[], [], ⟨rfl, rfl⟩, hin, hp⟩
    · rintro ⟨_, _, ⟨rfl, rfl⟩, hin, hp⟩
      exact ⟨hin, hp⟩
  | cons c cs ih =>
    have hlast (before : List Char) : ((c :: before).getLast?.map isWordChar).getD inWord =
        (before.getLast?.map isWordChar).getD (isWordChar c) := by
      cases before <;> simp [List.getLast?_cons]
    simp only [anyWordStart, Bool.or_eq_true, Bool.and_eq_true, Bool.not_eq_true', ih]
    constructor
    · rintro (⟨hin, hp⟩ | ⟨before, rest, rfl, hin, hp⟩)
      · exact ⟨[], c :: cs, rfl, hin, hp⟩
      · exact ⟨c :: before, rest, rfl, hlast before ▸ hin, hp⟩
    · rintro ⟨_ | ⟨d, before⟩, rest, hcs, hin, hp⟩
      · exact .inl ⟨hin, hcs ▸ hp⟩
      · obtain ⟨rfl, rfl⟩ := List.cons.inj hcs
        exact .inr ⟨before, rest, rfl, hlast before ▸ hin, hp⟩

/-- A mark follows white space, if it does not begin with any itself. -/
theorem trimStart_eq_append_iff {mark cs rest : List Char} (h : mark.head?.any (!isSpace ·)) :
    trimStart cs = mark ++ rest ↔ ∃ gap, Spaces gap ∧ cs = gap ++ (mark ++ rest) := by
  obtain ⟨c, mark, rfl⟩ : ∃ c more, mark = c :: more := by cases mark <;> simp_all
  constructor
  · intro h
    refine ⟨cs.takeWhile isSpace, fun d hd => List.mem_takeWhile_imp hd, ?_⟩
    rw [← h]
    exact List.takeWhile_append_dropWhile.symm
  · rintro ⟨gap, hgap, rfl⟩
    rw [trimStart, List.dropWhile_append_of_pos hgap, List.cons_append,
      List.dropWhile_cons_of_neg (by simpa using h)]

theorem afterWord?_eq_some_iff {word : String} {cs rest : List Char} :
    afterWord? word cs = some rest ↔ ∃ tail, cs = word.toList ++ tail ∧ trimStart tail = rest := by
  simp only [afterWord?, Option.map_eq_some_iff, afterMark?_eq_some_iff]

theorem definesHere_iff {cs : List Char} :
    definesHere cs ↔ ∃ gap gap' after, gap ≠ [] ∧ Spaces gap ∧ Spaces gap' ∧
      cs = "function".toList ++ (gap ++ ("testcase".toList ++ (gap' ++ (['('] ++ after)))) := by
  have hname (rest : List Char) :
      ((afterWord? "testcase" (trimStart rest)).bind (afterMark? ['('])).isSome ↔
        ∃ gap gap' after, Spaces gap ∧ Spaces gap' ∧
          rest = gap ++ ("testcase".toList ++ (gap' ++ (['('] ++ after))) := by
    simp only [Option.isSome_iff_exists, Option.bind_eq_some_iff, afterWord?_eq_some_iff,
      afterMark?_eq_some_iff]
    constructor
    · rintro ⟨after, _, ⟨tail, hname, rfl⟩, hmark⟩
      obtain ⟨gap, hgap, rfl⟩ := (trimStart_eq_append_iff (by decide)).mp hname
      obtain ⟨gap', hgap', rfl⟩ := (trimStart_eq_append_iff (by decide)).mp hmark
      exact ⟨gap, gap', after, hgap, hgap', rfl⟩
    · rintro ⟨gap, gap', after, hgap, hgap', rfl⟩
      exact ⟨after, _, ⟨_, (trimStart_eq_append_iff (by decide)).mpr ⟨gap, hgap, rfl⟩, rfl⟩,
        (trimStart_eq_append_iff (by decide)).mpr ⟨gap', hgap', rfl⟩⟩
  constructor
  · unfold definesHere
    split
    case h_1 c rest h =>
      simp only [Bool.and_eq_true, hname]
      rintro ⟨hc, gap, gap', after, hgap, hgap', rfl⟩
      exact ⟨c :: gap, gap', after, by simp, List.forall_mem_cons.mpr ⟨hc, hgap⟩, hgap',
        afterMark?_eq_some_iff.mp h⟩
    case h_2 => simp
  · rintro ⟨_ | ⟨c, gap⟩, gap', after, hne, hgap, hgap', rfl⟩
    · exact absurd rfl hne
    · obtain ⟨hc, hgap⟩ := List.forall_mem_cons.mp hgap
      rw [definesHere, afterMark?_eq_some_iff.mpr rfl]
      exact Bool.and_eq_true_iff.mpr ⟨hc, (hname _).mpr ⟨gap, gap', after, hgap, hgap', rfl⟩⟩

theorem callsHere_iff {cs : List Char} :
    callsHere cs ↔ ∃ gap gap' gap'' after, Spaces gap ∧ Spaces gap' ∧ Spaces gap'' ∧
      cs = "runTestCase".toList ++ (gap ++ ("(".toList ++ (gap' ++ ("testcase".toList ++ (gap'' ++
        ([')'] ++ after)))))) := by
  simp only [callsHere, bind, Option.isSome_iff_exists, Option.bind_eq_some_iff,
    afterWord?_eq_some_iff, afterMark?_eq_some_iff]
  constructor
  · rintro ⟨after, _, ⟨tail, rfl, rfl⟩, _, ⟨tail', hopen, rfl⟩, _, ⟨tail'', hname, rfl⟩, hclose⟩
    obtain ⟨gap, hgap, rfl⟩ := (trimStart_eq_append_iff (by decide)).mp hopen
    obtain ⟨gap', hgap', rfl⟩ := (trimStart_eq_append_iff (by decide)).mp hname
    obtain ⟨gap'', hgap'', rfl⟩ := (trimStart_eq_append_iff (by decide)).mp hclose
    exact ⟨gap, gap', gap'', after, hgap, hgap', hgap'', rfl⟩
  · rintro ⟨gap, gap', gap'', after, hgap, hgap', hgap'', rfl⟩
    exact ⟨after, _, ⟨_, rfl, rfl⟩,
      _, ⟨_, (trimStart_eq_append_iff (by decide)).mpr ⟨gap, hgap, rfl⟩, rfl⟩,
      _, ⟨_, (trimStart_eq_append_iff (by decide)).mpr ⟨gap', hgap', rfl⟩, rfl⟩,
      (trimStart_eq_append_iff (by decide)).mpr ⟨gap'', hgap'', rfl⟩⟩

theorem wordBreak_iff {before : List Char} :
    (before.getLast?.map isWordChar).getD false = false ↔ WordBreak before := by
  cases h : before.getLast? <;> simp [WordBreak, h]

theorem definesTestCase_iff {body : List Char} : definesTestCase body ↔ TestCaseDefined body := by
  simp only [definesTestCase, anyWordStart_iff, wordBreak_iff, definesHere_iff]
  constructor
  · rintro ⟨before, _, rfl, hbreak, gap, gap', after, hne, hgap, hgap', rfl⟩
    exact ⟨before, gap, gap', after, hbreak, hne, hgap, hgap', by simp⟩
  · rintro ⟨before, gap, gap', after, hbreak, hne, hgap, hgap', rfl⟩
    exact ⟨before, _, by simp, hbreak, gap, gap', after, hne, hgap, hgap', rfl⟩

theorem callsRunner_iff {body : List Char} : callsRunner body ↔ RunnerCalled body := by
  simp only [callsRunner, anyWordStart_iff, wordBreak_iff, callsHere_iff]
  constructor
  · rintro ⟨before, _, rfl, hbreak, gap, gap', gap'', after, hgap, hgap', hgap'', rfl⟩
    exact ⟨before, gap, gap', gap'', after, hbreak, hgap, hgap', hgap'', by simp⟩
  · rintro ⟨before, gap, gap', gap'', after, hbreak, hgap, hgap', hgap'', rfl⟩
    exact ⟨before, _, by simp, hbreak, gap, gap', gap'', after, hgap, hgap', hgap'', rfl⟩

instance (body : List Char) : Decidable (TestCaseDefined body) :=
  decidable_of_iff _ definesTestCase_iff

instance (body : List Char) : Decidable (RunnerCalled body) := decidable_of_iff _ callsRunner_iff

/-! ### The patterns -/

/-- The pattern of a definition. -/
def testCaseItems : List Item :=
  [.boundary, .literal "function".toList, .some isSpace, .literal "testcase".toList, .many isSpace,
    .literal ['(']]

/-- The pattern of a call. -/
def runnerItems : List Item :=
  [.boundary, .literal "runTestCase".toList, .many isSpace, .literal ['('], .many isSpace,
    .literal "testcase".toList, .many isSpace, .literal [')']]

/-- A word that is matched at the border of a word begins where a word may begin. -/
theorem fits_boundary_literal {mark before after : List Char} {items : List Item}
    {pieces : List (List Char)} (h : mark.head?.any isWordChar) :
    Fits (.boundary :: .literal mark :: items) before.getLast? pieces after ↔ WordBreak before ∧
      ∃ more, pieces = [] :: mark :: more ∧
        Fits items (mark.getLast?.or before.getLast?) more after := by
  have hhead (cs : List Char) : (mark ++ cs).head?.any isWordChar = true := by
    cases mark <;> simp_all
  have hborder : before.getLast?.any isWordChar ≠ true ↔ WordBreak before := by
    cases hlast : before.getLast? <;> simp [WordBreak, hlast]
  simp only [fits_cons, Item.Takes]
  constructor
  · rintro ⟨_, _, rfl, ⟨rfl, hword⟩, _, more, rfl, rfl, hfit⟩
    rw [List.flatten_cons, List.append_assoc, hhead] at hword
    exact ⟨hborder.mp hword, more, rfl, hfit⟩
  · rintro ⟨hbreak, more, rfl, hfit⟩
    refine ⟨[], _, rfl, ⟨rfl, ?_⟩, mark, more, rfl, rfl, hfit⟩
    rw [List.flatten_cons, List.append_assoc, hhead]
    exact hborder.mpr hbreak

/-- **A body defines the test case where the pattern is found.** -/
theorem search_testCaseItems {body : List Char} :
    (search testCaseItems none body).isSome ↔ TestCaseDefined body := by
  have hword : "function".toList.head?.any isWordChar := by decide
  simp only [search_isSome_iff, testCaseItems, Option.or_none, fits_boundary_literal hword, fits_cons,
    fits_nil, Item.Takes]
  constructor
  · rintro ⟨before, _, after, rfl, hbreak, _, rfl, gap, _, rfl, ⟨hne, hgap⟩, _, _, rfl, rfl, gap', _,
      rfl, hgap', _, _, rfl, rfl, rfl⟩
    exact ⟨before, gap, gap', after, hbreak, hne, hgap, hgap', by simp⟩
  · rintro ⟨before, gap, gap', after, hbreak, hne, hgap, hgap', rfl⟩
    exact ⟨before, _, after, by simp, hbreak, _, rfl, gap, _, rfl, ⟨hne, hgap⟩, _, _, rfl, rfl, gap', _,
      rfl, hgap', _, _, rfl, rfl, rfl⟩

/-- **A body calls the runner where the pattern is found.** -/
theorem search_runnerItems {body : List Char} :
    (search runnerItems none body).isSome ↔ RunnerCalled body := by
  have hword : "runTestCase".toList.head?.any isWordChar := by decide
  simp only [search_isSome_iff, runnerItems, Option.or_none, fits_boundary_literal hword, fits_cons,
    fits_nil, Item.Takes]
  constructor
  · rintro ⟨before, _, after, rfl, hbreak, _, rfl, gap, _, rfl, hgap, _, _, rfl, rfl, gap', _, rfl,
      hgap', _, _, rfl, rfl, gap'', _, rfl, hgap'', _, _, rfl, rfl, rfl⟩
    exact ⟨before, gap, gap', gap'', after, hbreak, hgap, hgap', hgap'', by simp⟩
  · rintro ⟨before, gap, gap', gap'', after, hbreak, hgap, hgap', hgap'', rfl⟩
    exact ⟨before, _, after, by simp, hbreak, _, rfl, gap, _, rfl, hgap, _, _, rfl, rfl, gap', _, rfl,
      hgap', _, _, rfl, rfl, gap'', _, rfl, hgap'', _, _, rfl, rfl, rfl⟩

/-! ## What is read -/

/-- What is left of a text without the white space at its ends. -/
abbrev Trimmed (cs body : List Char) : Prop := StrippedOf (fun c => isSpace c = true) cs body

theorem trimmed_iff {cs body : List Char} : Trimmed cs body ↔ body = trim cs := strippedOf_iff

section

variable (reader : MetadataReader) (source : List Char)

/-- The metadata that is read from a source: what the reader makes of the text of its block. -/
inductive MetadataRead : Except FixtureError Metadata → Prop
  | missing (h : NoBlock source) : MetadataRead (.error .missingMetadata)
  | invalid {b : Block} {e : MetadataError} (hb : FirstBlock source b)
      (h : reader b.text = .error e) : MetadataRead (.error (.invalidMetadata
        (.ofOffset source (byteLength b.before + e.index.getD 0)) e.text))
  | metadata {b : Block} {m : Metadata} (hb : FirstBlock source b) (h : reader b.text = .ok m) :
    MetadataRead (.ok m)

/-- What is read from a source: of several errors the first, or its parts. -/
inductive SourceRead (path : String) : Except FixtureError Source → Prop
  | metadata {e : FixtureError} (h : MetadataRead reader source (.error e)) :
    SourceRead path (.error e)
  | missingTestCase {b : Block} {m : Metadata} (hb : FirstBlock source b)
      (h : reader b.text = .ok m) (hcase : ¬TestCaseDefined b.after) :
      SourceRead path (.error .missingTestCase)
  | missingRunnerCall {b : Block} {m : Metadata} (hb : FirstBlock source b)
      (h : reader b.text = .ok m) (hcase : TestCaseDefined b.after)
      (hcall : ¬RunnerCalled b.after) : SourceRead path (.error .missingRunnerCall)
  | fixture {b : Block} {m : Metadata} {body : List Char} (hb : FirstBlock source b)
      (h : reader b.text = .ok m) (hcase : TestCaseDefined b.after)
      (hcall : RunnerCalled b.after) (hbody : Trimmed b.after body) : SourceRead path (.ok
        { path, metadata := m, body := String.ofList body,
          license := "\n".intercalate ((licenseLines source).map String.ofList) })

end

variable {reader : MetadataReader} {source : List Char} {path : String}

/-- A source without a block, with one that is not metadata, or with one that is. -/
theorem block_cases (reader : MetadataReader) (source : List Char) :
    NoBlock source ∨ ∃ b, FirstBlock source b ∧
      ((∃ e, reader b.text = .error e) ∨ ∃ m, reader b.text = .ok m) := by
  cases hfind : Block.find? source with
  | none => exact .inl (Block.find?_eq_none_iff.mp hfind)
  | some b =>
    refine .inr ⟨b, Block.find?_eq_some_iff.mp hfind, ?_⟩
    cases reader b.text with
    | error e => exact .inl ⟨e, rfl⟩
    | ok m => exact .inr ⟨m, rfl⟩

theorem readMetadata_of_noBlock (h : NoBlock source) :
    readMetadata source reader = .error .missingMetadata := by
  rw [readMetadata, Block.find?_eq_none_iff.mpr h]

theorem readMetadata_of_error {b : Block} {e : MetadataError} (hb : FirstBlock source b)
    (h : reader b.text = .error e) : readMetadata source reader = .error (.invalidMetadata
      (.ofOffset source (byteLength b.before + e.index.getD 0)) e.text) := by
  simp only [readMetadata, Block.find?_eq_some_iff.mpr hb, h, Except.mapError]

theorem readMetadata_of_ok {b : Block} {m : Metadata} (hb : FirstBlock source b)
    (h : reader b.text = .ok m) : readMetadata source reader = .ok m := by
  simp only [readMetadata, Block.find?_eq_some_iff.mpr hb, h, Except.mapError]

/-- **The metadata of a source** is read by its block. -/
theorem readMetadata_iff {r : Except FixtureError Metadata} :
    readMetadata source reader = r ↔ MetadataRead reader source r := by
  constructor
  · rintro rfl
    obtain hnone | ⟨b, hb, ⟨e, h⟩ | ⟨m, h⟩⟩ := block_cases reader source
    · rw [readMetadata_of_noBlock hnone]
      exact .missing hnone
    · rw [readMetadata_of_error hb h]
      exact .invalid hb h
    · rw [readMetadata_of_ok hb h]
      exact .metadata hb h
  · rintro (hnone | ⟨hb, h⟩ | ⟨hb, h⟩)
    · exact readMetadata_of_noBlock hnone
    · exact readMetadata_of_error hb h
    · exact readMetadata_of_ok hb h

theorem Source.read_of_error {e : FixtureError} (h : readMetadata source reader = .error e) :
    Source.read path source reader = .error e := by
  simp only [Source.read, h, bind, Except.bind]

/-- The block whose text is metadata is also the one that the body follows. -/
theorem Source.read_of_ok {b : Block} {m : Metadata} {body : List Char} (hb : FirstBlock source b)
    (h : reader b.text = .ok m) (hbody : Trimmed b.after body) :
    Source.read path source reader =
      if ¬TestCaseDefined b.after then .error .missingTestCase
      else if ¬RunnerCalled b.after then .error .missingRunnerCall
      else .ok { path, metadata := m, body := String.ofList body,
                 license := "\n".intercalate ((licenseLines source).map String.ofList) } := by
  simp only [Source.read, readMetadata_of_ok hb h, Block.find?_eq_some_iff.mpr hb, bind,
    Except.bind, ← definesTestCase_iff, ← callsRunner_iff, Bool.not_eq_true, Bool.not_eq_true',
    trimmed_iff.mp hbody]
  rfl

/-- **The parts of a source** are read by its block and by the text after the block. -/
theorem Source.read_iff {r : Except FixtureError Source} :
    Source.read path source reader = r ↔ SourceRead reader source path r := by
  constructor
  · rintro rfl
    obtain hnone | ⟨b, hb, ⟨e, h⟩ | ⟨m, h⟩⟩ := block_cases reader source
    · rw [Source.read_of_error (readMetadata_of_noBlock hnone)]
      exact .metadata (.missing hnone)
    · rw [Source.read_of_error (readMetadata_of_error hb h)]
      exact .metadata (.invalid hb h)
    · have hbody := trimmed_iff.mpr (rfl : trim b.after = _)
      rw [Source.read_of_ok hb h hbody]
      split_ifs with hcase hcall
      · exact .fixture hb h hcase hcall hbody
      · exact .missingRunnerCall hb h hcase hcall
      · exact .missingTestCase hb h hcase
  · rintro (h | ⟨hb, h, hcase⟩ | ⟨hb, h, hcase, hcall⟩ | ⟨hb, h, hcase, hcall, hbody⟩)
    · exact Source.read_of_error (readMetadata_iff.mpr h)
    · rw [Source.read_of_ok hb h (trimmed_iff.mpr rfl), if_pos hcase]
    · rw [Source.read_of_ok hb h (trimmed_iff.mpr rfl), if_neg (not_not.mpr hcase), if_pos hcall]
    · rw [Source.read_of_ok hb h hbody, if_neg (not_not.mpr hcase), if_neg (not_not.mpr hcall)]

/--
**What is read goes by the first block.** The block that a pattern finds is that of the plain scan,
and the patterns for the test case and for the call of the runner find the form of a body. Whatever
the reader of metadata, the metadata of a source are what it makes of the text of this block, and
the body is the text after the same block.
-/
theorem Source.read_first_block (path : String) (source : List Char) (reader : MetadataReader) :
    (search blockItems none source).map Block.ofMatch = Block.find? source ∧
      (∀ b, Block.find? source = some b ↔ FirstBlock source b) ∧
      (∀ body, (search testCaseItems none body).isSome ↔ TestCaseDefined body) ∧
      (∀ body, (search runnerItems none body).isSome ↔ RunnerCalled body) ∧
      (∀ r, readMetadata source reader = r ↔ MetadataRead reader source r) ∧
      ∀ r, Source.read path source reader = r ↔ SourceRead reader source path r :=
  ⟨search_blockItems none source, fun _ => Block.find?_eq_some_iff, fun _ => search_testCaseItems,
    fun _ => search_runnerItems, fun _ => readMetadata_iff, fun _ => Source.read_iff⟩

end Es5.Fixture
