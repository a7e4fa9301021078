import Es5.Proofs.FixtureRun

/-!
# Resolving and running

The names that a fixture declares are resolved in order. With strict settings the first name that
nothing provides ends the run before the test case, and with lenient ones it is left out. A test
case that is reached is invoked once, and the outcome follows from how it ends.

* `Resolution`: the reports and the result of resolving names.
* `exists_resolution`: resolving names gives these reports and this result.
* `Judged`, `judged_iff`: the outcomes of test cases.
* **`Harness.run_by_resolution`**: preparing and running any fixture.
-/

namespace Es5.Harness

open Fixture (Source)

/-! ## Resolving names -/

/-- The resolver counts before the settings. -/
theorem resolve_eq_some_iff {h : Harness} {name : String} {i : Include} :
    h.resolve name = some i ↔ h.resolver name = some i ∨
      h.resolver name = none ∧ name ∈ h.config.extraIncludes ∧ i = .host name := by
  rw [resolve]
  cases h.resolver name with
  | some j => simp
  | none => simp [eq_comm]

/-- The report on a name. -/
def nameEvent (h : Harness) (name : String) : Event :=
  if (h.resolve name).isSome then .resolvedInclude name else .skippedInclude name

/-- The reports and the result of resolving names for the fixture `id`. -/
inductive Resolution (h : Harness) (id : String) (names : List String) :
    List Event → Except HarnessError (List Include) → Prop
  /-- Names that nothing provides are left out; with strict settings there must be none. -/
  | resolved (hnames : h.config.strictIncludes = false ∨ ∀ name ∈ names, (h.resolve name).isSome) :
    Resolution h id names (names.map h.nameEvent) (.ok (names.filterMap h.resolve))
  /-- With strict settings the first name that nothing provides ends the matter. -/
  | unresolved (hstrict : h.config.strictIncludes = true) {before after : List String}
      {name : String} (hnames : names = before ++ name :: after)
      (hbefore : ∀ name ∈ before, (h.resolve name).isSome) (hname : h.resolve name = none) :
    Resolution h id names (before.map .resolvedInclude) (.error (.unresolvedInclude id name))

variable {h : Harness} {id : String} {names : List String}

namespace Resolution

variable {name : String} {events : List Event} {result : Except HarnessError (List Include)}

/-- A name that is provided comes before the others. -/
theorem cons_some {i : Include} (hi : h.resolve name = some i)
    (hr : Resolution h id names events result) :
    Resolution h id (name :: names) (.resolvedInclude name :: events) (result.map (i :: ·)) := by
  have hsome : (h.resolve name).isSome := by simp [hi]
  cases hr with
  | resolved hnames =>
    have hall : Resolution h id (name :: names) _ _ := resolved (hnames.imp_right fun hall =>
      List.forall_mem_cons.mpr ⟨hsome, hall⟩)
    rwa [List.map_cons, nameEvent, if_pos hsome, List.filterMap_cons_some hi] at hall
  | unresolved hstrict hnames hbefore hname =>
    exact unresolved hstrict (congrArg (name :: ·) hnames)
      (List.forall_mem_cons.mpr ⟨hsome, hbefore⟩) hname

/-- With lenient settings a name that nothing provides is passed over. -/
theorem cons_none (hlenient : h.config.strictIncludes = false) (hnone : h.resolve name = none)
    (hr : Resolution h id names events result) :
    Resolution h id (name :: names) (.skippedInclude name :: events) result := by
  cases hr with
  | resolved =>
    have hall : Resolution h id (name :: names) _ _ := resolved (.inl hlenient)
    rwa [List.map_cons, nameEvent, if_neg (by simp [hnone]), List.filterMap_cons_none hnone] at hall
  | unresolved hstrict =>
    rw [hlenient] at hstrict
    cases hstrict

/-- Names are resolved unless the settings are strict and one of them is not provided. -/
theorem eq_ok_iff (hr : Resolution h id names events result) :
    result = .ok (names.filterMap h.resolve) ↔
      h.config.strictIncludes = false ∨ ∀ name ∈ names, (h.resolve name).isSome := by
  cases hr with
  | resolved hnames => exact iff_of_true rfl hnames
  | unresolved hstrict hnames hbefore hname =>
    refine iff_of_false nofun (not_or_intro (by simp [hstrict]) fun hall => ?_)
    have := hall _ (hnames ▸ List.mem_append_right _ List.mem_cons_self)
    simp [hname] at this

end Resolution

section Actions

variable {m : Type → Type} [Monad m] [LawfulMonad m] [Report m]

/-- **Resolving names** reports on them in order, and does nothing else. -/
theorem exists_resolution (h : Harness) (id : String) (names : List String) :
    ∃ events result, Resolution h id names events result ∧
      (resolveAll h id names : m _) = (do forM events report; pure result) := by
  induction names with
  | nil => exact ⟨[], .ok [], .resolved (.inr nofun), by simp [resolveAll]⟩
  | cons name rest ih =>
    obtain ⟨events, result, hr, hrest⟩ := ih
    cases hi : h.resolve name with
    | some i =>
      exact ⟨_, _, hr.cons_some hi, by simp [resolveAll, hi, hrest]⟩
    | none =>
      cases hstrict : h.config.strictIncludes with
      | false => exact ⟨_, _, hr.cons_none hstrict hi, by simp [resolveAll, hi, hstrict, hrest]⟩
      | true =>
        exact ⟨[], _, .unresolved hstrict (List.nil_append _).symm nofun hi,
          by simp [resolveAll, hi, hstrict]⟩

/-- A run resolves the names first, and goes on only if that succeeds. -/
theorem run_of_resolved {s : Source} {events : List Event}
    {result : Except HarnessError (List Include)}
    (hresolve : (resolveAll h s.id s.metadata.includes : m _) =
      (do forM events report; pure result)) (testCase : m Completion) :
    h.run s testCase = (do
      report (.enteredFixture s.id)
      forM events report
      match result with
      | .error e => pure (.error e)
      | .ok _ => return .ok (← runTestCase testCase)) := by
  rw [run, prepare, hresolve]
  refine bind_congr fun _ => ?_
  rw [bind_assoc]
  exact bind_congr fun _ => pure_bind _ _

end Actions

/-! ## Outcomes -/

/-- What is known of a crash. -/
def crashText : Crash → String
  | .message text => text
  | .other => "unknown panic payload"

/-- The outcome of a test case by how it ended. -/
inductive Judged : Completion → Outcome → Prop
  | passed {v : Value} (h : v.toBoolean = true) : Judged (.returned v) .pass
  | failed {v : Value} (h : v.toBoolean = false) :
    Judged (.returned v) (.fail "test case returned false")
  /-- An error is shown by its kind and its wording. -/
  | threw (e : ScriptError) :
    Judged (.threw e) (.fail ("test case threw: " ++ (e.kind.name ++ ": " ++ e.message)))
  | crashed (c : Crash) : Judged (.crashed c) (.fail ("test case threw: " ++ crashText c))

theorem judged_iff {c : Completion} {o : Outcome} : Judged c o ↔ o = Outcome.ofCompletion c := by
  constructor
  · rintro (h | h | _ | c)
    · exact (if_pos h).symm
    · exact (if_neg (by simp [h])).symm
    · rfl
    · cases c <;> rfl
  · rintro rfl
    cases c with
    | returned v =>
      cases h : v.toBoolean with
      | true => simpa [Outcome.ofCompletion, h] using Judged.passed h
      | false => simpa [Outcome.ofCompletion, h] using Judged.failed h
    | threw e => exact .threw e
    | crashed c => cases c <;> exact .crashed _

/-! ## Runs -/

section Runs

variable {σ : Type}

/-- Only calls that are nested too deeply keep a test case from ending in its own way. -/
theorem completion_eq_error {run : Run σ Value} {w w' : World (Behaviour σ) σ} {e : Abrupt}
    (h : Run.completion run w = .error e w') : e = .exhausted := by
  unfold Run.completion at h
  split at h <;> cases h
  rfl

theorem Journal.forM_report_bind {α : Type} (events : List Event) (f : PUnit → Journal σ α)
    (journal : List Entry) (w : World (Behaviour σ) σ) :
    ((forM events report : Journal σ PUnit) >>= f) journal w =
      f ⟨⟩ (journal ++ events.map .reported) w := by
  induction events generalizing journal with
  | nil => simp
  | cons e events ih => simp [ih]

/--
**Any fixture** is prepared by resolving its names, and run in the same way up to the first name
that strict settings refuse. A run that is not refused invokes the test case once, and its outcome
follows from how the test case ended.
-/
theorem run_by_resolution (h : Harness) (s : Source) (caller : Caller (Behaviour σ) σ)
    (path : String) (testCase : Program σ) (journal : List Entry) (w : World (Behaviour σ) σ) :
    (∀ name i, h.resolve name = some i ↔ h.resolver name = some i ∨
      h.resolver name = none ∧ name ∈ h.config.extraIncludes ∧ i = .host name) ∧
    ∃ events result, Resolution h s.id s.metadata.includes events result ∧
      (result = .ok (s.metadata.includes.filterMap h.resolve) ↔
        h.config.strictIncludes = false ∨
          ∀ name ∈ s.metadata.includes, (h.resolve name).isSome) ∧
      (h.prepare s : Journal σ _) journal w = .ok (result, journal ++ events.map .reported) w ∧
      let entered := journal ++ (.enteredFixture s.id :: events).map .reported
      (∀ e, result = .error e →
        h.run s (Journal.invoke caller path testCase) journal w = .ok (.error e, entered) w) ∧
      ∀ includes, result = .ok includes →
        match Run.completion (testCase.run caller) w with
        | .ok c w' => ∃ outcome, Judged c outcome ∧
          h.run s (Journal.invoke caller path testCase) journal w =
            .ok (.ok outcome, entered ++
              [.reported .runningCase, .invoked path, .reported outcome.event]) w'
        | .error e w' => e = .exhausted ∧
          h.run s (Journal.invoke caller path testCase) journal w = .error e w' := by
  refine ⟨fun _ _ => resolve_eq_some_iff, ?_⟩
  obtain ⟨events, result, hr, hresolve⟩ :=
    exists_resolution (m := Journal σ) h s.id s.metadata.includes
  refine ⟨events, result, hr, hr.eq_ok_iff, ?_, ?_, ?_⟩
  · rw [prepare, hresolve, Journal.forM_report_bind]
    rfl
  · rintro e rfl
    rw [run_of_resolved hresolve, Journal.report_bind, Journal.forM_report_bind]
    simp
    rfl
  · rintro includes rfl
    rw [run_of_resolved hresolve, Journal.report_bind, Journal.forM_report_bind]
    split
    next c w' hc =>
      refine ⟨_, judged_iff.mpr rfl, ?_⟩
      simp only [runTestCase, bind_assoc, pure_bind, Journal.report_bind, Journal.invoke_bind hc,
        List.map_cons, List.append_assoc, List.cons_append, List.nil_append]
      rfl
    next e w' he =>
      refine ⟨completion_eq_error he, ?_⟩
      simp only [runTestCase, bind_assoc, Journal.report_bind, Journal.invoke_bind_of_error he]

/--
Of four names the third is provided by nothing. Strict settings end the run there, without the test
case.
-/
theorem run_by_resolution_missing :
    let h : Harness := ⟨.native ["assert.js"], { extraIncludes := ["extra.js"] }⟩
    let s : Source :=
      ⟨"a.js", "", { includes := ["assert.js", "extra.js", "missing.js", "other.js"] }, ""⟩
    let testCase : Program Unit := .done (.boolean true)
    let events : List Event := [.resolvedInclude "assert.js", .resolvedInclude "extra.js"]
    Resolution h s.id s.metadata.includes events
        (.error (.unresolvedInclude s.id "missing.js")) ∧
      h.run s (Journal.invoke (runBehaviour 1) "a.js" testCase) [] ⟨#[], ()⟩ =
        .ok (.error (.unresolvedInclude s.id "missing.js"),
          (.enteredFixture s.id :: events).map .reported) ⟨#[], ()⟩ := by
  intro h s testCase events
  obtain ⟨-, events', result, hr, -, hprepare, hrefused, -⟩ :=
    run_by_resolution h s (runBehaviour 1) "a.js" testCase [] ⟨#[], ()⟩
  have hvalue : (h.prepare s : Journal Unit _) [] ⟨#[], ()⟩ =
      .ok (.error (.unresolvedInclude s.id "missing.js"), events.map .reported) ⟨#[], ()⟩ := rfl
  rw [hprepare, List.nil_append] at hvalue
  injection hvalue with hpair
  obtain ⟨rfl, hevents⟩ := Prod.mk.inj hpair
  obtain rfl : events' = events :=
    List.map_injective_iff.mpr (fun _ _ h => Entry.reported.inj h) hevents
  exact ⟨hr, hrefused _ rfl⟩

end Runs

end Es5.Harness
