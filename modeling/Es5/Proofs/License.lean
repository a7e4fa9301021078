import Es5.Proofs.FixtureForm

/-!
# The license of a fixture

The license is made of the comment lines that a source begins with. Each line is taken without the
break that ends it, and line feeds are put between them. So the license is a part of the source
exactly if every line of it but the last ends in a line feed alone. It is found without regard to
the block, and it ends before the block exactly if the opening mark stands below these lines.

* `Line`, `HasLines`: the lines of a text with the breaks that end them.
* `HasLines.lines_eq`, `exists_hasLines`: every text has lines, and these are what `lines` gives.
* `verbatim`: lines as they stand in a text.
* `LeadingComments`, `BlockFrom`: the comment lines that a source begins with, and its block.
* `LeadingComments.joined_prefix_iff`: when the license is a part of the source.
* `LeadingComments.verbatim_prefix_iff`: when the comment lines end before the block.
* **`Source.license_prefix_iff`**: the license, the block and the body of a source.
-/

namespace Es5.Fixture

open Text

/-! ## Lines and their breaks -/

/-- A line and the break that ends it. -/
structure Line where
  text : List Char
  lineBreak : List Char

namespace Line

/-- A line with its break. -/
def chars (l : Line) : List Char := l.text ++ l.lineBreak

/-- The first characters other than white space are `//`. -/
def IsComment (l : Line) : Prop :=
  ∃ gap rest, Spaces gap ∧ l.text = gap ++ (['/', '/'] ++ rest)

/-- The test for a comment. -/
def isComment (l : Line) : Bool := ['/', '/'].isPrefixOf (trimStart l.text)

theorem isComment_iff {l : Line} : l.isComment ↔ l.IsComment := by
  simp only [isComment, List.isPrefixOf_iff_prefix, IsComment]
  constructor
  · rintro ⟨rest, h⟩
    obtain ⟨gap, hgap, htext⟩ := (trimStart_eq_append_iff (by decide)).mp h.symm
    exact ⟨gap, rest, hgap, htext⟩
  · rintro ⟨gap, rest, hgap, htext⟩
    exact ⟨rest, ((trimStart_eq_append_iff (by decide)).mpr ⟨gap, hgap, htext⟩).symm⟩

end Line

/-- The lines of a text. Only the last of them may end without a break. -/
inductive HasLines : List Char → List Line → Prop
  | nil : HasLines [] []
  | last {text : List Char} (hne : text ≠ []) (h : '\n' ∉ text) : HasLines text [⟨text, []⟩]
  | feed {text rest : List Char} {ls : List Line} (h : '\n' ∉ text)
      (hreturn : text.getLast? ≠ some '\r') (hrest : HasLines rest ls) :
      HasLines (text ++ '\n' :: rest) (⟨text, ['\n']⟩ :: ls)
  | returnFeed {text rest : List Char} {ls : List Line} (h : '\n' ∉ text)
      (hrest : HasLines rest ls) :
      HasLines (text ++ '\r' :: '\n' :: rest) (⟨text, ['\r', '\n']⟩ :: ls)

/-- A character in front of a text goes into the first line, unless it is a break itself. -/
theorem HasLines.cons {cs : List Char} {ls : List Line} (hls : HasLines cs ls) (c : Char) :
    ∃ ls, HasLines (c :: cs) ls := by
  by_cases hc : c = '\n'
  · subst hc
    have h : HasLines ([] ++ '\n' :: cs) _ := .feed (by simp) (by simp) hls
    exact ⟨_, h⟩
  have hmem {text : List Char} (h : '\n' ∉ text) : '\n' ∉ c :: text := by
    simpa [Ne.symm hc] using h
  cases hls with
  | nil => exact ⟨_, .last (by simp) (hmem (by simp))⟩
  | last hne h => exact ⟨_, .last (by simp) (hmem h)⟩
  | returnFeed h hrest => exact ⟨_, .returnFeed (hmem h) hrest⟩
  | @feed text rest ls h hreturn hrest =>
    by_cases hlast : (c :: text).getLast? = some '\r'
    · -- Only a carriage return in front of an empty line makes a break of another kind.
      obtain rfl : text = [] := by
        by_contra hne
        rw [List.getLast?_cons_of_ne_nil hne] at hlast
        exact hreturn hlast
      obtain rfl : c = '\r' := by simpa using hlast
      have h : HasLines ([] ++ '\r' :: '\n' :: rest) _ := .returnFeed (by simp) hrest
      exact ⟨_, h⟩
    · exact ⟨_, .feed (hmem h) hlast hrest⟩

theorem exists_hasLines (cs : List Char) : ∃ ls, HasLines cs ls := by
  induction cs with
  | nil => exact ⟨[], .nil⟩
  | cons c cs ih =>
    obtain ⟨ls, hls⟩ := ih
    exact hls.cons c

/-! ### What is read as lines -/

theorem linesFrom_append {text : List Char} (h : '\n' ∉ text) (line rest : List Char) :
    linesFrom line (text ++ '\n' :: rest) =
      dropReturn (line.reverse ++ text) :: linesFrom [] rest := by
  induction text generalizing line with
  | nil => simp [linesFrom]
  | cons c text ih =>
    obtain ⟨hc, htext⟩ : c ≠ '\n' ∧ '\n' ∉ text := by simpa [eq_comm] using h
    rw [List.cons_append, linesFrom.eq_3 _ _ _ hc, ih htext]
    simp

theorem linesFrom_of_not_mem {text : List Char} (h : '\n' ∉ text) (line : List Char) :
    linesFrom line text =
      if line.reverse ++ text = [] then [] else [line.reverse ++ text] := by
  induction text generalizing line with
  | nil => simp [linesFrom]
  | cons c text ih =>
    obtain ⟨hc, htext⟩ : c ≠ '\n' ∧ '\n' ∉ text := by simpa [eq_comm] using h
    rw [linesFrom.eq_3 _ _ _ hc, ih htext]
    simp

theorem dropReturn_of_ne {text : List Char} (h : text.getLast? ≠ some '\r') :
    dropReturn text = text := if_neg h

theorem dropReturn_append (text : List Char) : dropReturn (text ++ ['\r']) = text := by
  rw [dropReturn, if_pos List.getLast?_concat, List.dropLast_concat]

namespace HasLines

variable {cs : List Char} {ls : List Line}

/-- **The lines of a text** are what reading them gives. -/
theorem lines_eq (h : HasLines cs ls) : lines cs = ls.map Line.text := by
  induction h with
  | nil => rfl
  | last hne h =>
    rw [lines, linesFrom_of_not_mem h]
    simp [hne]
  | feed h hreturn _ ih =>
    rw [lines, linesFrom_append h, List.reverse_nil, List.nil_append, dropReturn_of_ne hreturn]
    exact congrArg _ ih
  | @returnFeed text rest ls h _ ih =>
    have hreturn : '\n' ∉ text ++ ['\r'] := by simpa using h
    rw [lines, ← List.singleton_append, ← List.append_assoc, linesFrom_append hreturn,
      List.reverse_nil, List.nil_append, dropReturn_append]
    exact congrArg _ ih

theorem flatMap_chars (h : HasLines cs ls) : ls.flatMap Line.chars = cs := by
  induction h with
  | nil => rfl
  | last => simp [Line.chars]
  | feed _ _ _ ih | returnFeed _ _ ih => simp [Line.chars, ih]

theorem not_mem_text (h : HasLines cs ls) : ∀ l ∈ ls, '\n' ∉ l.text := by
  induction h with
  | nil => simp
  | last _ h => simpa using h
  | feed h _ _ ih | returnFeed h _ ih => exact List.forall_mem_cons.mpr ⟨h, ih⟩

/-- A line has a break, or nothing follows it. -/
theorem lineBreak_cases {head tail : List Line} {l : Line} (h : HasLines cs (head ++ l :: tail)) :
    l.lineBreak ∈ lineBreaks ∨ l.lineBreak = [] ∧ tail = [] := by
  generalize hls : head ++ l :: tail = ls at h
  induction h generalizing head with
  | nil => simp at hls
  | last =>
    cases head with
    | nil =>
      obtain ⟨rfl, rfl⟩ := List.cons.inj hls
      exact .inr ⟨rfl, rfl⟩
    | cons _ head => simp at hls
  | feed _ _ _ ih | returnFeed _ _ ih =>
    cases head with
    | nil =>
      obtain ⟨rfl, -⟩ := List.cons.inj hls
      exact .inl (by simp [lineBreaks])
    | cons _ head => exact ih (List.cons.inj hls).2

end HasLines

/-! ## Lines as they stand -/

/-- Lines as they stand in a text, without the break after the last of them. -/
def verbatim : List Line → List Char
  | [] => []
  | [l] => l.text
  | l :: l' :: ls => l.chars ++ verbatim (l' :: ls)

/-- The break after the last line. -/
def lastBreak (ls : List Line) : List Char := (ls.getLast?.map Line.lineBreak).getD []

theorem verbatim_append_lastBreak (ls : List Line) :
    verbatim ls ++ lastBreak ls = ls.flatMap Line.chars := by
  induction ls using verbatim.induct with
  | case1 => rfl
  | case2 l => simp [verbatim, lastBreak, Line.chars]
  | case3 l l' ls ih =>
    have hlast : lastBreak (l :: l' :: ls) = lastBreak (l' :: ls) := by
      simp [lastBreak, List.getLast?_cons]
    rw [verbatim, hlast, List.append_assoc, ih, ← List.flatMap_cons]

theorem count_lineBreak :
    ∀ lineBreak ∈ lineBreaks, lineBreak.count '\n' = 1 ∧ '/' ∉ lineBreak := by decide

/-- Each break but the last stands in the text. -/
theorem count_verbatim {ls : List Line} (htext : ∀ l ∈ ls, '\n' ∉ l.text)
    (hbreak : ∀ l ∈ ls.dropLast, l.lineBreak ∈ lineBreaks) :
    (verbatim ls).count '\n' = ls.length - 1 := by
  induction ls using verbatim.induct with
  | case1 => rfl
  | case2 l => simpa [verbatim, List.count_eq_zero] using htext
  | case3 l l' ls ih =>
    rw [List.dropLast_cons_of_ne_nil (by simp)] at hbreak
    obtain ⟨hl, hbreak⟩ := List.forall_mem_cons.mp hbreak
    obtain ⟨hltext, htext⟩ := List.forall_mem_cons.mp htext
    rw [verbatim, Line.chars, List.count_append, List.count_append,
      List.count_eq_zero.mpr hltext, (count_lineBreak _ hl).1, ih htext hbreak]
    simp only [List.length_cons]
    omega

/-- The texts of some lines with line feeds between them. -/
def joined (ls : List Line) : List Char := ['\n'].intercalate (ls.map Line.text)

theorem joined_cons_cons (l l' : Line) (ls : List Line) :
    joined (l :: l' :: ls) = l.text ++ '\n' :: joined (l' :: ls) := by
  rw [joined, List.map_cons, List.map_cons, List.intercalate_cons_cons, List.append_assoc]
  rfl

theorem joined_eq_verbatim {ls : List Line} (h : ∀ l ∈ ls.dropLast, l.lineBreak = ['\n']) :
    joined ls = verbatim ls := by
  induction ls using verbatim.induct with
  | case1 => rfl
  | case2 l => simp [joined, verbatim]
  | case3 l l' ls ih =>
    rw [List.dropLast_cons_of_ne_nil (by simp)] at h
    obtain ⟨hl, hls⟩ := List.forall_mem_cons.mp h
    rw [joined_cons_cons, verbatim, Line.chars, hl, ih hls]
    simp

/-- Line feeds stand for the breaks only where these are line feeds alone. -/
theorem feeds_of_joined_prefix {ls : List Line} {rest : List Char}
    (hbreak : ∀ l ∈ ls.dropLast, l.lineBreak ∈ lineBreaks)
    (h : joined ls <+: verbatim ls ++ rest) : ∀ l ∈ ls.dropLast, l.lineBreak = ['\n'] := by
  induction ls using verbatim.induct with
  | case1 => simp
  | case2 l => simp
  | case3 l l' ls ih =>
    rw [List.dropLast_cons_of_ne_nil (by simp)] at hbreak ⊢
    obtain ⟨hl, hbreak⟩ := List.forall_mem_cons.mp hbreak
    rw [joined_cons_cons, verbatim, Line.chars, List.append_assoc, List.append_assoc,
      List.prefix_append_right_inj] at h
    simp only [lineBreaks, List.mem_cons, List.not_mem_nil, or_false] at hl
    obtain hl | hl := hl
    · rw [hl, List.singleton_append, List.cons_prefix_cons] at h
      exact List.forall_mem_cons.mpr ⟨hl, ih hbreak h.2⟩
    · rw [hl, List.cons_append, List.cons_prefix_cons] at h
      exact absurd h.1 (by decide)

theorem prefix_of_append_cons {front rest gap more : List Char} {c : Char} (hc : c ∉ front)
    (h : front ++ rest = gap ++ c :: more) : front <+: gap := by
  obtain ⟨ds, hgap, -⟩ | ⟨ds, hfront, hds⟩ := List.append_eq_append_iff.mp h
  · exact ⟨ds, hgap.symm⟩
  · cases ds with
    | nil => simp [hfront]
    | cons d ds =>
      obtain ⟨rfl, -⟩ := List.cons.inj hds
      simp [hfront] at hc

/-! ## The comment lines of a source -/

/-- The lines of a source, cut after the comment lines that it begins with. -/
structure LeadingComments (source : List Char) (head tail : List Line) : Prop where
  hasLines : HasLines source (head ++ tail)
  comments : ∀ l ∈ head, l.IsComment
  longest : ∀ l ∈ tail.head?, ¬l.IsComment

/-- The block of a source, with what stands in front of its opening mark. -/
structure BlockFrom (source lead : List Char) (b : Block) : Prop where
  first : FirstBlock source b
  opens : Shortest (OpensAfter source) lead
  before : ∃ lineBreak ∈ lineBreaks, b.before = lead ++ opener ++ lineBreak

theorem licenseLines_eq {source : List Char} {ls : List Line} (h : HasLines source ls) :
    licenseLines source = (ls.takeWhile Line.isComment).map Line.text := by
  rw [licenseLines, h.lines_eq, List.takeWhile_map]
  rfl

theorem exists_leadingComments (source : List Char) : ∃ head tail,
    LeadingComments source head tail ∧ licenseLines source = head.map Line.text := by
  obtain ⟨ls, hls⟩ := exists_hasLines source
  refine ⟨ls.takeWhile Line.isComment, ls.dropWhile Line.isComment, ⟨?_, fun l hl => ?_,
    fun l hl hcomment => ?_⟩, licenseLines_eq hls⟩
  · rwa [List.takeWhile_append_dropWhile]
  · exact Line.isComment_iff.mp (List.mem_takeWhile_imp hl)
  · have hnot := List.head?_dropWhile_not Line.isComment ls
    rw [Option.mem_def.mp hl] at hnot
    simp [Line.isComment_iff.mpr hcomment] at hnot

namespace LeadingComments

variable {source : List Char} {head tail : List Line}

theorem lineBreak_mem (h : LeadingComments source head tail) :
    ∀ l ∈ head.dropLast, l.lineBreak ∈ lineBreaks := by
  intro l hl
  have hne : head ≠ [] := fun he => by simp [he] at hl
  obtain ⟨before, after, hsplit⟩ := List.append_of_mem hl
  have hlines := h.hasLines
  rw [← List.dropLast_concat_getLast hne, hsplit, List.append_assoc, List.append_assoc,
    List.cons_append] at hlines
  exact hlines.lineBreak_cases.resolve_right (by simp)

theorem source_eq (h : LeadingComments source head tail) :
    source = verbatim head ++ (lastBreak head ++ tail.flatMap Line.chars) := by
  rw [← List.append_assoc, verbatim_append_lastBreak, ← List.flatMap_append, h.hasLines.flatMap_chars]

theorem count_verbatim (h : LeadingComments source head tail) :
    (verbatim head).count '\n' = head.length - 1 :=
  Fixture.count_verbatim
    (fun l hl => h.hasLines.not_mem_text l (List.mem_append_left _ hl)) h.lineBreak_mem

/-- The last comment line has a break, or nothing follows it. -/
theorem lastBreak_cases (h : LeadingComments source head tail) (hne : head ≠ []) :
    lastBreak head ∈ lineBreaks ∨ lastBreak head = [] ∧ tail = [] := by
  have hlines := h.hasLines
  rw [← List.dropLast_concat_getLast hne, List.append_assoc, List.singleton_append] at hlines
  rw [lastBreak, List.getLast?_eq_some_getLast hne]
  exact hlines.lineBreak_cases

/-- **The comment lines end before the opening mark** exactly if it stands on a line below them. -/
theorem verbatim_prefix_iff (h : LeadingComments source head tail) {lead : List Char}
    (hlead : OpensAfter source lead) :
    verbatim head <+: lead ↔ head.length ≤ lead.count '\n' := by
  obtain ⟨lineBreak, -, rest, hsource⟩ := hlead
  constructor
  · rintro ⟨gap, rfl⟩
    obtain rfl | hne := eq_or_ne head []
    · simp
    have hafter : lastBreak head ++ tail.flatMap Line.chars =
        gap ++ '/' :: (opener.tail ++ lineBreak ++ rest) := by
      have heq := h.source_eq.symm.trans hsource
      simp only [List.append_assoc, List.append_cancel_left_eq] at heq
      exact heq
    obtain hmem | ⟨hnil, htail⟩ := h.lastBreak_cases hne
    · obtain ⟨hone, hslash⟩ := count_lineBreak _ hmem
      have hcount := (prefix_of_append_cons hslash hafter).count_le '\n'
      rw [List.count_append, h.count_verbatim]
      omega
    · simp [hnil, htail] at hafter
  · intro hle
    have hverbatim : verbatim head <+: source := ⟨_, h.source_eq.symm⟩
    have hlead : lead <+: source := ⟨opener ++ lineBreak ++ rest, by simp [hsource]⟩
    obtain hprefix | hprefix := List.prefix_or_prefix_of_prefix hverbatim hlead
    · exact hprefix
    · have hcount := hprefix.count_le '\n'
      rw [h.count_verbatim] at hcount
      obtain rfl : head = [] := List.length_eq_zero_iff.mp (by omega)
      exact List.nil_prefix

/-- **The license is a part of the source** exactly if the lines in it end in feeds alone. -/
theorem joined_prefix_iff (h : LeadingComments source head tail) :
    joined head <+: source ↔ ∀ l ∈ head.dropLast, l.lineBreak = ['\n'] := by
  constructor
  · intro hprefix
    rw [h.source_eq] at hprefix
    exact feeds_of_joined_prefix h.lineBreak_mem hprefix
  · intro hfeeds
    rw [joined_eq_verbatim hfeeds, h.source_eq]
    exact List.prefix_append ..

end LeadingComments

/-! ## The parts of a source -/

theorem FirstBlock.exists_from {source : List Char} {b : Block} (h : FirstBlock source b) :
    ∃ lead, BlockFrom source lead b := by
  obtain ⟨rest, raw, ⟨hsource, lead, hlead, hbefore⟩, hclosing⟩ := h
  exact ⟨lead, ⟨rest, raw, ⟨hsource, lead, hlead, hbefore⟩, hclosing⟩, hlead, hbefore⟩

/-- The license is the comment lines as they stand in a source, all in front of the opening mark. -/
def KeepsLicense (lead : List Char) (head : List Line) (s : Source) : Prop :=
  s.license.toList = verbatim head ∧ s.license.toList <+: lead

theorem LeadingComments.keepsLicense_iff {source lead : List Char} {head tail : List Line}
    {s : Source} (h : LeadingComments source head tail) (hlead : OpensAfter source lead)
    (hlicense : s.license.toList = joined head) :
    KeepsLicense lead head s ↔
      (∀ l ∈ head.dropLast, l.lineBreak = ['\n']) ∧ head.length ≤ lead.count '\n' := by
  rw [KeepsLicense, hlicense, ← h.joined_prefix_iff, ← h.verbatim_prefix_iff hlead]
  constructor
  · rintro ⟨heq, hprefix⟩
    exact ⟨heq ▸ ⟨_, h.source_eq.symm⟩, heq ▸ hprefix⟩
  · rintro ⟨hsource, hprefix⟩
    have heq := joined_eq_verbatim (h.joined_prefix_iff.mp hsource)
    exact ⟨heq, heq ▸ hprefix⟩

theorem BlockFrom.source_eq {source lead : List Char} {b : Block} (h : BlockFrom source lead b) :
    ∃ lineBreak gap, lineBreak ∈ lineBreaks ∧
      source = lead ++ opener ++ lineBreak ++ b.text ++ gap ++ closer ++ b.after := by
  obtain ⟨⟨rest, raw, ⟨hsource, -⟩, ⟨hrest, -⟩, hdrop⟩, -, lineBreak, hmem, hbefore⟩ := h
  obtain ⟨gap, rfl⟩ := hdrop.prefix
  exact ⟨lineBreak, gap, hmem, by simp [hsource, hrest, hbefore]⟩

/--
**The parts of a fixture.** The license is a part of the source exactly if the comment lines in it
but the last end in line feeds alone. It stands in front of the block exactly if moreover the
opening mark stands on a line below them. The block comes before the body in any case.
-/
theorem Source.license_prefix_iff {path : String} {source : List Char} {reader : MetadataReader}
    {s : Source} (h : Source.read path source reader = .ok s) :
    ∃ head tail lead b, LeadingComments source head tail ∧ BlockFrom source lead b ∧
      s.license.toList = joined head ∧ verbatim head <+: source ∧
      (s.license.toList <+: source ↔ ∀ l ∈ head.dropLast, l.lineBreak = ['\n']) ∧
      (verbatim head <+: lead ↔ head.length ≤ lead.count '\n') ∧
      (KeepsLicense lead head s ↔
        (∀ l ∈ head.dropLast, l.lineBreak = ['\n']) ∧ head.length ≤ lead.count '\n') ∧
      ∃ lineBreak gap space space', lineBreak ∈ lineBreaks ∧ Spaces space ∧ Spaces space' ∧
        source = lead ++ opener ++ lineBreak ++ b.text ++ gap ++ closer ++
          (space ++ (s.body.toList ++ space')) := by
  obtain ⟨head, tail, hhead, hlines⟩ := exists_leadingComments source
  cases Source.read_iff.mp h with
  | @fixture b m body hb _ _ _ hbody =>
    obtain ⟨lead, hfrom⟩ := hb.exists_from
    obtain ⟨lineBreak, gap, hmem, hsource⟩ := hfrom.source_eq
    obtain ⟨space, space', hafter, hspace, hspace'⟩ := hbody.split
    have hopens : OpensAfter source lead := hfrom.opens.1
    have hlicense : ("\n".intercalate ((licenseLines source).map String.ofList)).toList =
        joined head := by
      rw [hlines, String.toList_intercalate, joined, List.map_map, List.map_map]
      simp [Function.comp_def]
    refine ⟨head, tail, lead, b, hhead, hfrom, hlicense, ⟨_, hhead.source_eq.symm⟩, ?_,
      hhead.verbatim_prefix_iff hopens, hhead.keepsLicense_iff hopens hlicense, lineBreak, gap,
      space, space', hmem, hspace, hspace', ?_⟩
    · rw [hlicense, hhead.joined_prefix_iff]
    · rwa [String.toList_ofList, ← List.append_assoc space, ← hafter]

/-- A source whose lines end in carriage returns and feeds. -/
def returnFeedSource : List Char :=
  ("// a\r\n// b\r\n/*---\r\ndescription: x\r\n---*/\r\nfunction testcase() \x7b\x7d\r\n" ++
    "runTestCase(testcase);\r\n").toList

/-- Two comment lines that end in carriage returns and feeds are no license as they stand. -/
theorem Source.license_prefix_iff_returnFeed :
    ∃ s head tail lead, Source.read "a.js" returnFeedSource Metadata.ofYaml = .ok s ∧
      LeadingComments returnFeedSource head tail ∧ s.license = "// a\n// b" ∧
      ¬s.license.toList <+: returnFeedSource ∧ ¬KeepsLicense lead head s := by
  have hvalue : (Source.read "a.js" returnFeedSource Metadata.ofYaml).toOption.map (·.license) =
      some "// a\n// b" := by decide +kernel
  cases hread : Source.read "a.js" returnFeedSource Metadata.ofYaml with
  | error e =>
    rw [hread] at hvalue
    cases hvalue
  | ok s =>
    rw [hread] at hvalue
    have hlicense : s.license = "// a\n// b" := Option.some.inj hvalue
    obtain ⟨head, tail, lead, _, hhead, -, -, -, hpart, -, hkeeps, -⟩ :=
      license_prefix_iff hread
    have hnot : ¬s.license.toList <+: returnFeedSource := by
      rw [hlicense]
      decide +kernel
    exact ⟨s, head, tail, lead, rfl, hhead, hlicense, hnot,
      fun h => hnot (hpart.mpr (hkeeps.mp h).1)⟩

end Es5.Fixture
