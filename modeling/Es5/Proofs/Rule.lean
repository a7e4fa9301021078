import Es5.Proofs.Operation

/-!
# Rules for user code

A rule says which acts user code may do in which worlds. A run under a rule ends at the first act
that the rule does not admit, whoever does it. A program obeys a rule if its run is the same with
and without the rule.

* `Act`, `Rule`: what user code does to a world, and which acts are admitted.
* `Program.runUnder`, `behaviourUnder`: runs under a rule.
* `Program.Obeys`, `Rule.ObeyedBy`: no act of a run, or of the functions that an action calls, is
  against a rule.
* `Rule.noEdits`, `Rule.anything`: no direct edits, and every act.
* `Rule.Keeps`: what a rule admits goes along a relation.
* **`Program.Obeys.along`**: a relation that evolves holds along every run that obeys a rule.
* `World.ReachesUnder`: worlds reached under a rule, also within a run.
* **`World.ReachesUnder.along`**: what the acts that a rule admits keep holds up to such worlds.
* `World.Reaches`: worlds reached without direct edits.
* `Program.once`: runs of one operation.
-/

namespace Es5

variable {σ α : Type}

/-- What user code does to a world in one go. -/
inductive Act where
  | perform (op : Operation)
  | provided (i : Intrinsic) (this : Value) (args : List Value)
  | function (proto : Option Value)
  | build (shape : ObjectRecord Unit)

/-- Which acts are admitted in which worlds, given the way to call functions. -/
abbrev Rule (σ : Type) := Caller (Behaviour σ) σ → Act → World (Behaviour σ) σ → Bool

namespace Rule

/-- No direct edits. -/
def noEdits : Rule σ
  | _, .perform op, _ => !op.isEdit
  | _, _, _ => true

/-- Every act. -/
def anything : Rule σ := fun _ _ _ => true

end Rule

/-! ## Runs under a rule -/

/-- An action that ends the run where it is not admitted. Nothing can catch this end. -/
def Run.onlyIf (admitted : World (Behaviour σ) σ → Bool) (m : Run σ α) : Run σ α := fun w =>
  if admitted w then m w else .error .exhausted w

/-- Runs a program under a rule. -/
def Program.runUnder (rule : Rule σ) (caller : Caller (Behaviour σ) σ) : Program σ → Run σ Value
  | done v => pure v
  | fail e => throw (.threw e)
  | crash c => throw (.crashed c)
  | perform op next => do
    let a ← Run.onlyIf (rule caller (.perform op)) (Run.caught (op.run .provided caller))
    runUnder rule caller (next a)
  | function proto body next => do
    let f ← Run.onlyIf (rule caller (.function proto)) (Eval.newFunction (.user body) proto)
    runUnder rule caller (next f)
  | build shape body next => do
    let v ← Run.onlyIf (rule caller (.build shape))
      (Eval.alloc { shape with call := shape.call.map fun _ => .user body })
    runUnder rule caller (next v)
  | attempt body next => do
    let c ← Run.completion (runUnder rule caller body)
    runUnder rule caller (next c)
  | ask next => do runUnder rule caller (next (← get).host)
  | tell s next => do
    modify fun w => { w with host := s }
    runUnder rule caller next

/-- Runs a behaviour under a rule, with calls nested at most `depth` deep. -/
def behaviourUnder (rule : Rule σ) : Nat → Caller (Behaviour σ) σ
  | 0 => fun _ _ _ => throw .exhausted
  | depth + 1 => fun b this args =>
    match b with
    | .provided i =>
      Run.onlyIf (rule (behaviourUnder rule depth) (.provided i this args))
        (i.run (behaviourUnder rule depth) this args)
    | .user body => (body this args).runUnder rule (behaviourUnder rule depth)

/--
No act in the run of a program from `w` is against a rule, be it an act of the program or of a
function that it calls: a run that ends at the first such act is the same.
-/
def Program.Obeys (rule : Rule σ) (depth : Nat) (p : Program σ) (w : World (Behaviour σ) σ) :
    Prop :=
  p.runUnder rule (behaviourUnder rule depth) w = p.run (runBehaviour depth) w

theorem Program.runUnder_anything (caller : Caller (Behaviour σ) σ) :
    ∀ p : Program σ, p.runUnder Rule.anything caller = p.run caller
  | .done _ | .fail _ | .crash _ => rfl
  | .perform op next => bind_congr fun a => runUnder_anything caller (next a)
  | .function _ _ next => bind_congr fun f => runUnder_anything caller (next f)
  | .build _ _ next => bind_congr fun v => runUnder_anything caller (next v)
  | .attempt body next => by
    rw [runUnder, run, runUnder_anything caller body]
    exact bind_congr fun c => runUnder_anything caller (next c)
  | .ask next => bind_congr fun w => runUnder_anything caller (next w.host)
  | .tell _ next => bind_congr fun _ => runUnder_anything caller next

/-- A rule that admits everything changes nothing. -/
theorem behaviourUnder_anything : ∀ depth : Nat,
    behaviourUnder (Rule.anything : Rule σ) depth = runBehaviour depth
  | 0 => rfl
  | depth + 1 => by
    funext b this args
    cases b with
    | provided i =>
      show i.run (behaviourUnder Rule.anything depth) this args =
        i.run (runBehaviour depth) this args
      rw [behaviourUnder_anything depth]
    | user body =>
      show (body this args).runUnder _ (behaviourUnder _ depth) = (body this args).run _
      rw [behaviourUnder_anything depth, Program.runUnder_anything]

/-- No act of the functions that an action calls is against a rule. -/
def Rule.ObeyedBy (rule : Rule σ) (depth : Nat) (m : Caller (Behaviour σ) σ → Run σ α)
    (w : World (Behaviour σ) σ) : Prop :=
  m (behaviourUnder rule depth) w = m (runBehaviour depth) w

/-! ## Rules and relations -/

/-- An act that edits nothing directly and gives no object as a length of `S`. -/
def Act.Regular (S : Value → Prop) (caller : Caller (Behaviour σ) σ) (w : World (Behaviour σ) σ) :
    Act → Prop
  | perform op => op.Regular S caller w
  | provided i _ args => i.Regular S caller args w
  | _ => True

/-- A rule that admits only regular acts. -/
def Rule.Ensures (rule : Rule σ) (S : Value → Prop) : Prop :=
  ∀ caller act w, rule caller act w = true → act.Regular S caller w

theorem Rule.noEdits_ensures : (noEdits : Rule σ).Ensures fun _ => False := by
  intro caller act w h
  cases act with
  | perform op =>
    cases op with
    | store | unstore | setPrototype => cases h
    | put | define => exact fun hS => hS.elim
    | defineProperty => exact fun _ _ _ _ _ _ hS => hS.elim
    | _ => trivial
  | provided i =>
    cases i with
    | defineProperty => exact fun _ _ _ _ _ _ hS => hS.elim
    | _ => trivial
  | _ => trivial

namespace Eval

theorem after_caught (m : Run σ α) (w : World (Behaviour σ) σ) :
    after (Run.caught m) w = after m w := by
  unfold after Run.caught
  rcases m w with ⟨a, w'⟩ | ⟨_ | _ | _, w'⟩ <;> rfl

theorem after_completion (m : Run σ Value) (w : World (Behaviour σ) σ) :
    after (Run.completion m) w = after m w := by
  unfold after Run.completion
  rcases m w with ⟨a, w'⟩ | ⟨_ | _ | _, w'⟩ <;> rfl

end Eval

/-- The acts that a rule admits go along a relation, if the functions do that they call. -/
structure Rule.Keeps (rule : Rule σ) (R : Heap (Behaviour σ) → Heap (Behaviour σ) → Prop) :
    Prop where
  perform {caller : Caller (Behaviour σ) σ} (hc : Eval.CallsAlong R caller) {op : Operation}
    {w : World (Behaviour σ) σ} (h : rule caller (.perform op) w = true) :
    Eval.Along R (op.run .provided caller) w
  /-- The function that is called is one that some object runs. -/
  provided {caller : Caller (Behaviour σ) σ} (hc : Eval.CallsAlong R caller) {i : Intrinsic}
    {this : Value} {args : List Value} {w : World (Behaviour σ) σ}
    (hi : w.heap.Stores (.provided i)) (h : rule caller (.provided i this args) w = true) :
    Eval.Along R (i.run caller this args) w
  function {caller : Caller (Behaviour σ) σ} {proto : Option Value} {w : World (Behaviour σ) σ}
    (body : Value → List Value → Program σ) (h : rule caller (.function proto) w = true) :
    Eval.Along R (Eval.newFunction (.user body) proto) w
  build {caller : Caller (Behaviour σ) σ} {shape : ObjectRecord Unit} {w : World (Behaviour σ) σ}
    (body : Value → List Value → Program σ) (h : rule caller (.build shape) w = true) :
    Eval.Along R (Eval.alloc { shape with call := shape.call.map fun _ => .user body }) w

theorem Rule.Keeps.mono {rule bound : Rule σ}
    {R : Heap (Behaviour σ) → Heap (Behaviour σ) → Prop} (hbound : bound.Keeps R)
    (h : ∀ caller act w, rule caller act w = true → bound caller act w = true) : rule.Keeps R where
  perform hc _ _ hact := hbound.perform hc (h _ _ _ hact)
  provided hc _ _ _ _ hi hact := hbound.provided hc hi (h _ _ _ hact)
  function body hact := hbound.function body (h _ _ _ hact)
  build body hact := hbound.build body (h _ _ _ hact)

theorem Heap.Evolution.keeps {S : Value → Prop}
    {R : Heap (Behaviour σ) → Heap (Behaviour σ) → Prop} (hR : Heap.Evolution S R) {rule : Rule σ}
    (hrule : rule.Ensures S) : rule.Keeps R where
  perform hc _ _ h := hR.run hc (hrule _ _ _ h)
  provided hc _ this _ _ _ h := hR.provided hc (hrule _ (.provided _ this _) _ h)
  function _ _ := hR.alloc _ _
  build _ _ := hR.alloc _ _

namespace Heap.Passage

open Eval

variable {R : Heap (Behaviour σ) → Heap (Behaviour σ) → Prop} (hR : Heap.Passage R) {rule : Rule σ}
  (hrule : rule.Keeps R)

include hR

theorem onlyIf {admitted : World (Behaviour σ) σ → Bool} {m : Run σ α} {w : World (Behaviour σ) σ}
    (hm : admitted w = true → Along R m w) : Along R (Run.onlyIf admitted m) w := by
  cases h : admitted w with
  | true =>
    exact (hm h).congr (by rw [Run.onlyIf, if_pos h])
  | false =>
    have he : Run.onlyIf admitted m w = .error .exhausted w := by
      rw [Run.onlyIf, if_neg (by simp [h])]
    unfold Along
    rw [after_of_error he]
    exact hR.refl _

include hrule

theorem runUnder {caller : Caller (Behaviour σ) σ} (hc : CallsAlong R caller) :
    ∀ (p : Program σ) (w : World (Behaviour σ) σ), Along R (p.runUnder rule caller) w
  | .done v, w => hR.refl w.heap
  | .fail e, w => hR.refl w.heap
  | .crash c, w => hR.refl w.heap
  | .perform op next, w => by
    refine hR.bind (hR.onlyIf fun h => ?_) fun a w => runUnder hc (next a) w
    unfold Along
    rw [after_caught]
    exact hrule.perform hc h
  | .function proto body next, w =>
    hR.bind (hR.onlyIf fun h => hrule.function body h) fun f w => runUnder hc (next f) w
  | .build shape body next, w =>
    hR.bind (hR.onlyIf fun h => hrule.build body h) fun v w => runUnder hc (next v) w
  | .attempt body next, w => by
    have hbody := runUnder hc body w
    unfold Along at hbody
    rw [← after_completion] at hbody
    exact hR.bind hbody fun c w => runUnder hc (next c) w
  | .ask next, w => hR.bind (hR.refl w.heap) fun w' w => runUnder hc (next w'.host) w
  | .tell s next, w => hR.bind (hR.refl w.heap) fun _ w => runUnder hc next w

/-- Calls under a rule, by induction on how deep they are nested. -/
theorem behaviourUnder : ∀ depth : Nat, CallsAlong R (Es5.behaviourUnder rule depth)
  | 0 => hR.calls fun _ _ _ w _ => hR.refl w.heap
  | depth + 1 => hR.calls fun b this args w hb => by
    have hc := behaviourUnder depth
    cases b with
    | provided i => exact hR.onlyIf fun h => hrule.provided hc hb h
    | user body => exact hR.runUnder hrule hc (body this args) w

/-- A program under a rule that calls functions under it. -/
theorem underRule (depth : Nat) (p : Program σ) (w : World (Behaviour σ) σ) :
    Along R (p.runUnder rule (Es5.behaviourUnder rule depth)) w :=
  hR.runUnder hrule (hR.behaviourUnder hrule depth) p w

end Heap.Passage

/-- **A relation that evolves holds along every run that obeys a rule.** -/
theorem Program.Obeys.along {S : Value → Prop}
    {R : Heap (Behaviour σ) → Heap (Behaviour σ) → Prop} (hR : Heap.Evolution S R)
    {rule : Rule σ} (hrule : rule.Ensures S) {depth : Nat} {p : Program σ}
    {w : World (Behaviour σ) σ} (h : p.Obeys rule depth w) :
    Eval.Along R (p.run (runBehaviour depth)) w := by
  exact (hR.underRule (hR.keeps hrule) depth p w).congr h.symm

/-! ## Worlds reached -/

/--
User code reaches a world by acts that `bound` admits, at the end of a run or within one: a rule
that admits no more than that may end the run at any act, be it deep within calls.
-/
def World.ReachesUnder (bound : Rule σ) (w w' : World (Behaviour σ) σ) : Prop :=
  ∃ (rule : Rule σ) (depth : Nat) (p : Program σ),
    (∀ caller act w, rule caller act w = true → bound caller act w = true) ∧
      w' = Eval.after (p.runUnder rule (behaviourUnder rule depth)) w

/-- **What the acts keep that a rule admits holds up to every world reached under it.** -/
theorem World.ReachesUnder.along {bound : Rule σ}
    {R : Heap (Behaviour σ) → Heap (Behaviour σ) → Prop} (hR : Heap.Passage R)
    (hbound : bound.Keeps R) {w w' : World (Behaviour σ) σ} (h : w.ReachesUnder bound w') :
    R w.heap w'.heap := by
  obtain ⟨rule, depth, p, hle, rfl⟩ := h
  exact hR.underRule (hbound.mono hle) depth p w

/-- User code reaches a world without direct edits, at the end of a run or within one. -/
def World.Reaches (w w' : World (Behaviour σ) σ) : Prop := w.ReachesUnder Rule.noEdits w'

theorem Program.Obeys.reaches {depth : Nat} {p : Program σ} {w : World (Behaviour σ) σ}
    (h : p.Obeys Rule.noEdits depth w) : w.Reaches (Eval.after (p.run (runBehaviour depth)) w) := by
  refine ⟨Rule.noEdits, depth, p, fun _ _ _ => id, ?_⟩
  unfold Eval.after
  rw [h]

/-- **A relation that evolves, whatever lengths are given, holds up to every world reached.** -/
theorem World.Reaches.along {R : Heap (Behaviour σ) → Heap (Behaviour σ) → Prop}
    (hR : Heap.Evolution (fun _ => False) R) {w w' : World (Behaviour σ) σ} (h : w.Reaches w') :
    R w.heap w'.heap :=
  World.ReachesUnder.along hR.toPassage (hR.keeps Rule.noEdits_ensures) h

/-! ## Single operations -/

namespace Program

/-- The program that performs one operation. -/
def once (op : Operation) : Program σ := .perform op fun _ => .done .undefined

/-- One operation that is admitted obeys a rule, if it may not call anything. -/
theorem obeys_once {rule : Rule σ} {op : Operation} {w : World (Behaviour σ) σ}
    (h : rule (behaviourUnder rule 0) (.perform op) w = true) : (once op).Obeys rule 0 w := by
  have he : Run.onlyIf (rule (behaviourUnder rule 0) (.perform op))
      (Run.caught (op.run .provided (behaviourUnder rule 0))) w =
        Run.caught (op.run .provided (runBehaviour 0)) w := by
    rw [Run.onlyIf, if_pos h]
    rfl
  unfold Obeys once runUnder run
  simp only [bind, EStateM.bind, he]
  rfl

theorem after_once (op : Operation) (caller : Caller (Behaviour σ) σ)
    (w : World (Behaviour σ) σ) :
    Eval.after ((once op).run caller) w = Eval.after (op.run .provided caller) w := by
  rw [← Eval.after_caught (op.run .provided caller)]
  unfold once run
  cases h : Run.caught (op.run .provided caller) w with
  | ok a w' =>
    rw [Eval.after_bind_of_ok h, Eval.after_of_ok h]
    rfl
  | error e w' => rw [Eval.after_bind_of_error h, Eval.after_of_error h]

end Program

end Es5
