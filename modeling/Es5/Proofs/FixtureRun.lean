import Es5.Harness.Run
import Es5.Proofs.BundledCase
import Es5.Proofs.FixtureForm
import Mathlib.Data.List.Forall2

/-!
# Runs of bundled fixtures

The bundled fixtures pass wherever they are run: their sources have the form of a fixture, the one
name that these declare is resolved, and the test cases return true in any world.

* `IsShaped`, `Bundled.isShaped`: the bundled sources have the form of a fixture.
* `MetadataReader.IncludesRunner`: what a reader of metadata has to find in them.
* `Journal`: runs of user code with a record of what a harness reports and invokes.
* `Harness.run_of_returned`: the run of a fixture whose test case returns.
* `Activity`, `Attempt`, `attempts`: runs of fixtures between anything else.
* **`Harness.bundled_pass`**: each run of a bundled fixture passes and invokes its test case once.
-/

namespace Es5

open Eval

/-! ## The sources -/

namespace Fixture

open Harness (caseRunnerName)

/-- The characters of whole lines. -/
theorem toList_ofLines {ls : List String} {css : List (List Char)}
    (h : List.Forall₂ (fun l cs => l = String.ofList cs) ls css) :
    (ofLines ls).toList = css.flatMap (· ++ ['\n']) := by
  rw [ofLines, String.toList_join]
  induction h with
  | nil => rfl
  | cons hl _ ih =>
    rw [List.map_cons, List.flatMap_cons, List.flatMap_cons, ih, String.toList_append, hl,
      String.toList_ofList]
    rfl

/-- What a property of the characters of lines says of the text of these lines. -/
theorem of_ofLines {P : List Char → Prop} {ls : List String} {css : List (List Char)}
    (h : List.Forall₂ (fun l cs => l = String.ofList cs) ls css)
    (hP : P (css.flatMap (· ++ ['\n']))) : P (ofLines ls).toList := by
  rwa [toList_ofLines h]

/-- A source with a metadata block, and after it a test case that is handed to the runner. -/
def IsShaped (source : List Char) : Prop :=
  ∃ b, FirstBlock source b ∧ TestCaseDefined b.after ∧ RunnerCalled b.after

/-- A reader finds metadata in the block of a source, which include the runner and nothing else. -/
def MetadataReader.IncludesRunner (reader : MetadataReader) (source : List Char) : Prop :=
  ∀ b, FirstBlock source b → ∃ m, reader b.text = .ok m ∧ m.includes = [caseRunnerName]

/-- **A source of this shape can be read**, whatever reads the metadata in its block. -/
theorem IsShaped.exists_read {source : List Char} (h : IsShaped source) {reader : MetadataReader}
    (hreader : reader.IncludesRunner source) (path : String) :
    ∃ s, Source.read path source reader = .ok s ∧ s.metadata.includes = [caseRunnerName] := by
  obtain ⟨b, hb, hcase, hcall⟩ := h
  obtain ⟨m, hm, hincludes⟩ := hreader b hb
  exact ⟨_, Source.read_iff.mpr (.fixture hb hm hcase hcall (trimmed_iff.mpr rfl)), hincludes⟩

theorem isShaped_of_map {source : List Char} (h : (Block.find? source).map (fun b =>
    definesTestCase b.after && callsRunner b.after) = some true) : IsShaped source := by
  obtain ⟨b, hfind, hbody⟩ := Option.map_eq_some_iff.mp h
  rw [Bool.and_eq_true, definesTestCase_iff, callsRunner_iff] at hbody
  exact ⟨b, Block.find?_eq_some_iff.mp hfind, hbody⟩

/-- The sources of the bundled fixtures have this shape. -/
theorem Bundled.isShaped {σ : Type} {b : Bundled σ} (hb : b ∈ bundled) :
    IsShaped b.source.toList := by
  simp only [bundled, List.mem_cons, List.not_mem_nil, or_false] at hb
  rcases hb with rfl | rfl <;>
  · apply of_ofLines (P := IsShaped)
    · repeat (apply List.Forall₂.cons; exact rfl)
      exact .nil
    · exact isShaped_of_map (by decide +kernel)

theorem MetadataReader.includesRunner_of_map {reader : MetadataReader} {source : List Char}
    (h : (Block.find? source).map (fun b => (reader b.text).toOption.map (·.includes)) =
      some (some [caseRunnerName])) : reader.IncludesRunner source := by
  intro b hb
  rw [Block.find?_eq_some_iff.mpr hb, Option.map_some] at h
  obtain ⟨m, hm, hincludes⟩ := Option.map_eq_some_iff.mp (Option.some.inj h)
  refine ⟨m, ?_, hincludes⟩
  cases hreader : reader b.text with
  | error e =>
    rw [hreader] at hm
    cases hm
  | ok m' =>
    rw [hreader] at hm
    exact congrArg _ (Option.some.inj hm)

/-- The reader of YAML finds the runner in the bundled sources. -/
theorem Bundled.includesRunner_ofYaml {σ : Type} {b : Bundled σ} (hb : b ∈ bundled) :
    Metadata.ofYaml.IncludesRunner b.source.toList := by
  simp only [bundled, List.mem_cons, List.not_mem_nil, or_false] at hb
  rcases hb with rfl | rfl <;>
  · apply of_ofLines (P := Metadata.ofYaml.IncludesRunner)
    · repeat (apply List.Forall₂.cons; exact rfl)
      exact .nil
    · exact MetadataReader.includesRunner_of_map (by decide +kernel)

end Fixture

/-! ## Journals -/

namespace Harness

open Fixture (Bundled Metadata MetadataReader Source bundled)

/-- What a journal records. -/
inductive Entry where
  | reported (e : Event)
  | invoked (path : String)
  deriving DecidableEq

/-- Whether a test case is invoked. -/
def Entry.isInvocation : Entry → Bool
  | reported _ => false
  | invoked _ => true

/-- Runs of user code with a journal, the latest entry last. -/
abbrev Journal (σ : Type) := StateT (List Entry) (Run σ)

variable {σ : Type}

namespace Journal

/-- Adds an entry. -/
def write (e : Entry) : Journal σ Unit := modify (· ++ [e])

instance : Report (Journal σ) := ⟨fun e => write (.reported e)⟩

@[simp] theorem write_bind {α : Type} (e : Entry) (f : Unit → Journal σ α) (journal : List Entry)
    (w : World (Behaviour σ) σ) : (write e >>= f) journal w = f () (journal ++ [e]) w := rfl

@[simp] theorem report_bind {α : Type} (e : Event) (f : Unit → Journal σ α) (journal : List Entry)
    (w : World (Behaviour σ) σ) :
    ((report e : Journal σ Unit) >>= f) journal w = f () (journal ++ [.reported e]) w := rfl

/-- Invokes the test case of the fixture at a path. -/
def invoke (caller : Caller (Behaviour σ) σ) (path : String) (testCase : Program σ) :
    Journal σ Completion := do
  write (.invoked path)
  (Run.completion (testCase.run caller) : Run σ Completion)

theorem invoke_bind {α : Type} {caller : Caller (Behaviour σ) σ} {path : String}
    {testCase : Program σ} {w w' : World (Behaviour σ) σ} {c : Completion}
    (hc : Run.completion (testCase.run caller) w = .ok c w') (f : Completion → Journal σ α)
    (journal : List Entry) :
    (invoke caller path testCase >>= f) journal w = f c (journal ++ [.invoked path]) w' := by
  have hlift : ∀ journal, (liftM (Run.completion (testCase.run caller)) >>= f : Journal σ α)
      journal w = f c journal w' := fun journal => by
    show EStateM.bind (EStateM.bind (Run.completion (testCase.run caller)) _) _ w = _
    simp only [EStateM.bind, hc]
    rfl
  rw [invoke, bind_assoc, write_bind]
  exact hlift _

/-- Calls that are nested too deeply end a run. -/
theorem invoke_bind_of_error {α : Type} {caller : Caller (Behaviour σ) σ} {path : String}
    {testCase : Program σ} {w w' : World (Behaviour σ) σ} {e : Abrupt}
    (he : Run.completion (testCase.run caller) w = .error e w') (f : Completion → Journal σ α)
    (journal : List Entry) : (invoke caller path testCase >>= f) journal w = .error e w' := by
  have hlift : ∀ journal, (liftM (Run.completion (testCase.run caller)) >>= f : Journal σ α)
      journal w = .error e w' := fun journal => by
    show EStateM.bind (EStateM.bind (Run.completion (testCase.run caller)) _) _ w = _
    simp only [EStateM.bind, he]
  rw [invoke, bind_assoc, write_bind]
  exact hlift _

end Journal

/-- The run of a fixture that needs no name but the runner's, when its test case returns. -/
theorem run_of_returned {h : Harness} {s : Source} (hs : s.metadata.includes = [caseRunnerName])
    (hresolve : (h.resolve caseRunnerName).isSome = true) {caller : Caller (Behaviour σ) σ}
    {testCase : Program σ} {w w' : World (Behaviour σ) σ} {v : Value}
    (hv : testCase.run caller w = .ok v w') (path : String) (journal : List Entry) :
    h.run s (Journal.invoke caller path testCase) journal w =
      .ok (.ok (.ofCompletion (.returned v)), journal ++ [.reported (.enteredFixture s.id),
        .reported (.resolvedInclude caseRunnerName), .reported .runningCase, .invoked path,
        .reported (Outcome.ofCompletion (.returned v)).event]) w' := by
  obtain ⟨i, hi⟩ := Option.isSome_iff_exists.mp hresolve
  have hc : Run.completion (testCase.run caller) w = .ok (.returned v) w' := by
    rw [Run.completion, hv]
  simp only [run, prepare, hs, resolveAll, hi, runTestCase, bind_assoc, Journal.report_bind,
    pure_bind, Except.map, Journal.invoke_bind hc, List.append_assoc, List.cons_append,
    List.nil_append]
  rfl

/-! ## Runs between anything else -/

/-- Something done to a world: the run of a fixture by a harness, or anything else. -/
inductive Activity (σ : Type) where
  | runs (h : Harness) (b : Bundled σ)
  | other (f : World (Behaviour σ) σ → World (Behaviour σ) σ)

/-- The fixture that is run. -/
def Activity.fixture? : Activity σ → Option (Bundled σ)
  | runs _ b => some b
  | other _ => none

/-- The run of a fixture: how it ended, its journal, and the worlds before and after it. -/
structure Attempt (σ : Type) where
  fixture : Bundled σ
  result : Except Abrupt (Except HarnessError Outcome)
  journal : List Entry
  before : World (Behaviour σ) σ
  after : World (Behaviour σ) σ

/-- Reads a fixture and runs it, with calls nested at most `depth` deep. -/
def attempt (reader : MetadataReader) (depth : Nat) (h : Harness) (b : Bundled σ)
    (w : World (Behaviour σ) σ) : Attempt σ :=
  match loadFixture b.path b.source b.testCase reader with
  | .error e => ⟨b, .ok (.error e), [], w, w⟩
  | .ok (s, testCase) =>
    match h.run s (Journal.invoke (runBehaviour depth) b.path testCase) [] w with
    | .ok (result, journal) w' => ⟨b, .ok result, journal, w, w'⟩
    | .error e w' => ⟨b, .error e, [], w, w'⟩

/-- The runs of fixtures in the course of activities that follow each other. -/
def attempts (reader : MetadataReader) (depth : Nat) :
    List (Activity σ) → World (Behaviour σ) σ → List (Attempt σ)
  | [], _ => []
  | .other f :: rest, w => attempts reader depth rest (f w)
  | .runs h b :: rest, w =>
    let a := attempt reader depth h b w
    a :: attempts reader depth rest a.after

/-- A run that passes, invokes the test case of its fixture once, and changes no object. -/
structure Attempt.Passes (a : Attempt σ) : Prop where
  result : a.result = .ok (.ok .pass)
  invocations : a.journal.filter Entry.isInvocation = [.invoked a.fixture.path]
  heap : a.before.heap.Extends a.after.heap
  host : a.after.host = a.before.host

section Runs

variable {reader : MetadataReader}
  (hreader : ∀ b ∈ (bundled : List (Bundled σ)), reader.IncludesRunner b.source.toList)
  {depth : Nat} (hdepth : 2 ≤ depth)

include hreader hdepth

/-- **A run of a bundled fixture passes** in any world. -/
theorem passes_attempt {h : Harness} (hresolve : (h.resolve caseRunnerName).isSome = true)
    {b : Bundled σ} (hb : b ∈ bundled) (w : World (Behaviour σ) σ) :
    (attempt reader depth h b w).Passes ∧ (attempt reader depth h b w).fixture = b := by
  obtain ⟨s, hread, hs⟩ := (Bundled.isShaped hb).exists_read (hreader b hb) b.path
  obtain ⟨w', hreturn, hheap, hhost⟩ := Bundled.testCase_returns hb hdepth w
  have hload : loadFixture b.path b.source b.testCase reader = .ok (s, b.testCase) := by
    rw [loadFixture, hread]
  have hrun := run_of_returned hs hresolve hreturn b.path []
  rw [attempt, hload]
  dsimp only
  rw [hrun]
  exact ⟨⟨rfl, rfl, hheap, hhost⟩, rfl⟩

/--
**The bundled fixtures pass.** In whatever world the activities begin, and whatever is done between
the runs, every run of a bundled fixture by a harness that resolves the runner passes, invokes its
test case once, and changes no object. The reader of metadata has to find the runner in the blocks
of the bundled sources.
-/
theorem bundled_pass {activities : List (Activity σ)}
    (hruns : ∀ h b, .runs h b ∈ activities →
      b ∈ bundled ∧ (h.resolve caseRunnerName).isSome = true) (w : World (Behaviour σ) σ) :
    (attempts reader depth activities w).map (·.fixture) =
        activities.filterMap Activity.fixture? ∧
      ∀ a ∈ attempts reader depth activities w, a.Passes := by
  induction activities generalizing w with
  | nil => exact ⟨rfl, fun _ ha => nomatch ha⟩
  | cons activity rest ih =>
    have hrest := ih fun h b hb => hruns h b (List.mem_cons_of_mem _ hb)
    cases activity with
    | other f => exact hrest (f w)
    | runs h b =>
      obtain ⟨hb, hresolve⟩ := hruns h b List.mem_cons_self
      obtain ⟨hpasses, hfixture⟩ := passes_attempt hreader hdepth hresolve hb w
      obtain ⟨hfixtures, hall⟩ := hrest (attempt reader depth h b w).after
      constructor
      · rw [attempts, List.map_cons, hfixture, hfixtures]
        rfl
      · rintro a (_ | ⟨_, ha⟩)
        · exact hpasses
        · exact hall a ha

end Runs

/-- The fixtures pass before and after all objects lose their properties. -/
theorem bundled_pass_cleared :
    let clear : Activity Unit := .other fun w =>
      { w with heap := w.heap.map fun o => { o with properties := [], extensible := false } }
    let activities := bundled.map (.runs {}) ++ clear :: bundled.map (.runs {})
    (∀ b ∈ (bundled : List (Bundled Unit)), Metadata.ofYaml.IncludesRunner b.source.toList) ∧
      (∀ h b, .runs h b ∈ activities →
        b ∈ bundled ∧ (h.resolve caseRunnerName).isSome = true) ∧
      (attempts Metadata.ofYaml 2 activities ⟨#[], ()⟩).length = 4 ∧
      ∀ a ∈ attempts Metadata.ofYaml 2 activities ⟨#[], ()⟩, a.result = .ok (.ok .pass) := by
  intro clear activities
  have hreader (b : Bundled Unit) (hb : b ∈ bundled) :
      Metadata.ofYaml.IncludesRunner b.source.toList := Bundled.includesRunner_ofYaml hb
  have hruns : ∀ h b, .runs h b ∈ activities →
      b ∈ bundled ∧ (h.resolve caseRunnerName).isSome = true := by
    intro h b hmem
    have hrun : ∃ b' ∈ bundled, Activity.runs {} b' = .runs h b := by
      rcases List.mem_append.mp hmem with hmem | hmem
      · exact List.mem_map.mp hmem
      · rcases List.mem_cons.mp hmem with he | hmem
        · cases (show Activity.runs h b = .other _ from he)
        · exact List.mem_map.mp hmem
    obtain ⟨b', hb', he⟩ := hrun
    cases he
    exact ⟨hb', by decide⟩
  obtain ⟨hfixtures, hall⟩ := bundled_pass hreader (Nat.le_refl 2) hruns ⟨#[], ()⟩
  refine ⟨hreader, hruns, ?_, fun a ha => (hall a ha).result⟩
  rw [← List.length_map, hfixtures]
  rfl

end Harness

end Es5
