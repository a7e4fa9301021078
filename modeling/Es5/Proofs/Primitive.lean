import Es5.Proofs.Writes

/-!
# Conversion to plain values

An object is converted by asking its two conversion methods in turn. Each is looked up, which may
call a getter, and is called at most once, on the object and without arguments; the second is looked
up in the world that the first leaves, and only if the first gave no plain value. All other
conversions come to one of these.

* `Called`, `Caller.recorded`: calls, and functions run while a list of the calls is kept.
* `Performs`: an action with the calls it makes, in order, and how it ends.
* `Lookup`, `Answers`, `Asks`, `AsksAll`: a method looked up, called, and several asked in turn.
* `AsksAll.unique`: there is one way to ask.
* `Conducted`: what holds of the calls of a conversion and of its end.
* **`Eval.converts_once`**: every conversion of an object asks its methods in turn, once.
-/

namespace Es5

variable {κ σ α β : Type}

/-! ## Calls on record -/

/-- A call: what runs, on what and with which arguments, and the world in which it begins. -/
structure Called (κ σ : Type) where
  behaviour : κ
  this : Value
  args : List Value
  world : World κ σ

/-- How a call ends. -/
def Called.run (caller : Caller κ σ) (c : Called κ σ) : EStateM.Result Abrupt (World κ σ) Value :=
  caller c.behaviour c.this c.args c.world

/-- The call returns a value. -/
def Called.Returns (caller : Caller κ σ) (c : Called κ σ) : Prop := ∃ x w, c.run caller = .ok x w

/-- The world of a host that also keeps a list of calls. -/
def World.logging (w : World κ σ) (log : List (Called κ σ)) :
    World κ (σ × List (Called κ σ)) := ⟨w.heap, (w.host, log)⟩

/-- An end in the world of a host that also keeps a list of calls. -/
def logged (log : List (Called κ σ)) : EStateM.Result Abrupt (World κ σ) α →
    EStateM.Result Abrupt (World κ (σ × List (Called κ σ))) α
  | .ok a w => .ok a (w.logging log)
  | .error e w => .error e (w.logging log)

/-- Runs functions as `caller` does, and adds each call to the list. -/
def Caller.recorded (caller : Caller κ σ) : Caller κ (σ × List (Called κ σ)) :=
  fun b this args w =>
    let c : Called κ σ := ⟨b, this, args, ⟨w.heap, w.host.1⟩⟩
    logged (w.host.2 ++ [c]) (c.run caller)

/--
The action `m` ends as `result` and makes `calls` in this order: `recorded`, the same action with
functions run on record, ends alike and adds them to the list.
-/
def Performs (m : Eval κ σ α) (recorded : Eval κ (σ × List (Called κ σ)) α) (w : World κ σ)
    (calls : List (Called κ σ)) (result : EStateM.Result Abrupt (World κ σ) α) : Prop :=
  m w = result ∧ ∀ log, recorded (w.logging log) = logged (log ++ calls) result

namespace Performs

variable {m : Eval κ σ α} {m' : Eval κ (σ × List (Called κ σ)) α} {f : α → Eval κ σ β}
  {f' : α → Eval κ (σ × List (Called κ σ)) β} {w w' : World κ σ} {calls calls' : List (Called κ σ)}
  {a : α} {e : Abrupt} {result : EStateM.Result Abrupt (World κ σ) β}

theorem pure (a : α) (w : World κ σ) : Performs (Pure.pure a) (Pure.pure a) w [] (.ok a w) :=
  ⟨rfl, fun log => by rw [List.append_nil]; rfl⟩

theorem fail (e : ScriptError) (w : World κ σ) :
    Performs (Eval.fail e : Eval κ σ α) (Eval.fail e) w [] (.error (.threw e) w) :=
  ⟨rfl, fun log => by rw [List.append_nil]; rfl⟩

/-- What is read from the heap makes no calls. -/
theorem look_bind {g : Heap κ → α} (h : Performs (f (g w.heap)) (f' (g w.heap)) w calls result) :
    Performs (Eval.look g >>= f) (Eval.look g >>= f') w calls result := h

theorem bind (hm : Performs m m' w calls (.ok a w'))
    (hf : Performs (f a) (f' a) w' calls' result) :
    Performs (m >>= f) (m' >>= f') w (calls ++ calls') result := by
  refine ⟨(Eval.bind_of_ok hm.1).trans hf.1, fun log => ?_⟩
  rw [Eval.bind_of_ok (hm.2 log), hf.2, List.append_assoc]

/-- An error ends the action that goes on with the result. -/
theorem bind_error (hm : Performs m m' w calls (.error e w')) :
    Performs (m >>= f) (m' >>= f') w calls (.error e w') :=
  ⟨Eval.bind_of_error hm.1, fun log => Eval.bind_of_error (hm.2 log)⟩

end Performs

/-- What runs when a value is called. -/
def Heap.behaviour? (h : Heap κ) (f : Value) : Option κ := (h.record? f).bind (·.call)

theorem Performs.call {caller : Caller κ σ} {f this : Value} {args : List Value} {w : World κ σ}
    {b : κ} (hb : w.heap.behaviour? f = some b) :
    Performs (Eval.call caller f this args) (Eval.call caller.recorded f this args) w
      [⟨b, this, args, w⟩] (caller b this args w) := by
  constructor
  · show (Eval.look (·.behaviour? f) >>= _) w = _
    rw [Eval.bind_of_ok (show Eval.look (·.behaviour? f) w = .ok (some b) w by rw [Eval.look, hb])]
  · intro log
    show (Eval.look (·.behaviour? f) >>= _) (w.logging log) = _
    rw [Eval.bind_of_ok (show Eval.look (·.behaviour? f) (w.logging log) =
      .ok (some b) (w.logging log) by rw [Eval.look, World.logging, hb])]
    rfl

theorem Performs.call_none {caller : Caller κ σ} {f this : Value} {args : List Value}
    {w : World κ σ} (hb : w.heap.behaviour? f = none) :
    Performs (Eval.call caller f this args) (Eval.call caller.recorded f this args) w []
      (.error (.threw (.notCallable (w.heap.typeName f))) w) := by
  have hcall {κ σ : Type} (caller : Caller κ σ) {w : World κ σ}
      (hb : w.heap.behaviour? f = none) : Eval.call caller f this args w =
        .error (.threw (.notCallable (w.heap.typeName f))) w := by
    show (Eval.look (·.behaviour? f) >>= _) w = _
    rw [Eval.bind_of_ok (show Eval.look (·.behaviour? f) w = .ok none w by rw [Eval.look, hb])]
    rfl
  refine ⟨hcall caller hb, fun log => ?_⟩
  rw [hcall caller.recorded (w := w.logging log) hb, List.append_nil]
  rfl

/-! ## Asking for a plain value -/

/-- How asking for a plain value ends: with one, with an error on the way, or without either. -/
inductive Ending where
  | plain (x : Value)
  | abrupt (e : Abrupt)
  | nothing

/-- How a conversion ends that goes on from the plain value by `f`. -/
def Ending.result (f : Value → α) : Ending → World κ σ → EStateM.Result Abrupt (World κ σ) α
  | plain x, w => .ok (f x) w
  | abrupt e, w => .error e w
  | nothing, w => .error (.threw .noPrimitive) w

section

variable (caller : Caller κ σ) (v : Value) (name : String) (w : World κ σ)

/--
The value under a key of an object. A getter that is found is called once, on the object and
without arguments, wherever it was found.
-/
inductive Lookup : List (Called κ σ) → EStateM.Result Abrupt (World κ σ) Value → Prop
  | data {x : Value} {wr e c : Bool} (h : w.heap.find? v name = some (.data x wr e c)) :
    Lookup [] (.ok x w)
  | absent (h : w.heap.find? v name = none) : Lookup [] (.ok .undefined w)
  | setOnly {set : Option Value} {e c : Bool}
    (h : w.heap.find? v name = some (.accessor none set e c)) : Lookup [] (.ok .undefined w)
  | getter {g : Value} {set : Option Value} {e c : Bool} {b : κ}
    (h : w.heap.find? v name = some (.accessor (some g) set e c))
    (hb : w.heap.behaviour? g = some b) : Lookup [⟨b, v, [], w⟩] (caller b v [] w)
  | broken {g : Value} {set : Option Value} {e c : Bool}
    (h : w.heap.find? v name = some (.accessor (some g) set e c))
    (hb : w.heap.behaviour? g = none) :
    Lookup [] (.error (.threw (.notCallable (w.heap.typeName g))) w)

/--
What a method gives that was looked up: if it can be called, it is called once, on the object and
without arguments.
-/
inductive Answers : EStateM.Result Abrupt (World κ σ) Value → List (Called κ σ) → Ending →
    World κ σ → Prop
  | unread {e : Abrupt} {w : World κ σ} : Answers (.error e w) [] (.abrupt e) w
  | uncallable {m : Value} {w : World κ σ} (hm : w.heap.behaviour? m = none) :
    Answers (.ok m w) [] .nothing w
  | failed {m : Value} {b : κ} {w w' : World κ σ} {e : Abrupt}
    (hm : w.heap.behaviour? m = some b) (hc : caller b v [] w = .error e w') :
    Answers (.ok m w) [⟨b, v, [], w⟩] (.abrupt e) w'
  | object {m x : Value} {b : κ} {w w' : World κ σ} (hm : w.heap.behaviour? m = some b)
    (hc : caller b v [] w = .ok x w') (hx : x.isObject = true) :
    Answers (.ok m w) [⟨b, v, [], w⟩] .nothing w'
  | plain {m x : Value} {b : κ} {w w' : World κ σ} (hm : w.heap.behaviour? m = some b)
    (hc : caller b v [] w = .ok x w') (hx : x.isObject = false) :
    Answers (.ok m w) [⟨b, v, [], w⟩] (.plain x) w'

/-- One method asked for a plain value: it is looked up, and then answers. -/
inductive Asks : List (Called κ σ) → Ending → World κ σ → Prop
  | mk {calls calls' : List (Called κ σ)} {result : EStateM.Result Abrupt (World κ σ) Value}
    {ending : Ending} {w' : World κ σ} (hl : Lookup caller v name w calls result)
    (ha : Answers caller v result calls' ending w') : Asks (calls ++ calls') ending w'

end

/--
Several methods asked in turn. The next one is asked in the world that the last one left, and only
if there was neither a plain value nor an error.
-/
inductive AsksAll (caller : Caller κ σ) (v : Value) :
    List String → World κ σ → List (Called κ σ) → Ending → World κ σ → Prop
  | nobody {w : World κ σ} : AsksAll caller v [] w [] .nothing w
  | last {name : String} {rest : List String} {w w' : World κ σ} {calls : List (Called κ σ)}
    {ending : Ending} (ha : Asks caller v name w calls ending w') (he : ending ≠ .nothing) :
    AsksAll caller v (name :: rest) w calls ending w'
  | next {name : String} {rest : List String} {w w₁ w' : World κ σ}
    {calls calls' : List (Called κ σ)} {ending : Ending}
    (ha : Asks caller v name w calls .nothing w₁)
    (hrest : AsksAll caller v rest w₁ calls' ending w') :
    AsksAll caller v (name :: rest) w (calls ++ calls') ending w'

variable {caller : Caller κ σ} {v : Value} {name : String} {w w' w'' : World κ σ}
  {calls calls' : List (Called κ σ)} {ending ending' : Ending}

/-! ## There is one way to ask -/

theorem Lookup.unique {result result' : EStateM.Result Abrupt (World κ σ) Value}
    (h : Lookup caller v name w calls result) (h' : Lookup caller v name w calls' result') :
    calls = calls' ∧ result = result' := by
  cases h <;> cases h' <;> simp_all

theorem Answers.unique {result : EStateM.Result Abrupt (World κ σ) Value}
    (h : Answers caller v result calls ending w')
    (h' : Answers caller v result calls' ending' w'') :
    calls = calls' ∧ ending = ending' ∧ w' = w'' := by
  cases h <;> cases h' <;> simp_all

theorem Asks.unique (h : Asks caller v name w calls ending w')
    (h' : Asks caller v name w calls' ending' w'') :
    calls = calls' ∧ ending = ending' ∧ w' = w'' := by
  obtain ⟨hl, ha⟩ := h
  obtain ⟨hl', ha'⟩ := h'
  obtain ⟨rfl, rfl⟩ := hl.unique hl'
  obtain ⟨rfl, rfl, rfl⟩ := ha.unique ha'
  exact ⟨rfl, rfl, rfl⟩

theorem AsksAll.unique {names : List String} (h : AsksAll caller v names w calls ending w')
    (h' : AsksAll caller v names w calls' ending' w'') :
    calls = calls' ∧ ending = ending' ∧ w' = w'' := by
  induction h generalizing calls' with
  | nobody =>
    cases h'
    exact ⟨rfl, rfl, rfl⟩
  | last ha he =>
    cases h' with
    | last ha' _ => exact ha.unique ha'
    | next ha' _ => exact absurd (ha.unique ha').2.1 he
  | next ha hrest ih =>
    cases h' with
    | last ha' he' => exact absurd (ha.unique ha').2.1.symm he'
    | next ha' hrest' =>
      obtain ⟨rfl, -, rfl⟩ := ha.unique ha'
      obtain ⟨rfl, rfl, rfl⟩ := ih hrest'
      exact ⟨rfl, rfl, rfl⟩

theorem Performs.map {m : Eval κ σ α} {m' : Eval κ (σ × List (Called κ σ)) α} {g : Value → α}
    (h : Performs m m' w calls (ending.result g w')) (f : α → β) :
    Performs (m >>= fun a => Pure.pure (f a)) (m' >>= fun a => Pure.pure (f a)) w calls
      (ending.result (f ∘ g) w') := by
  cases ending with
  | plain x =>
    rw [← List.append_nil calls]
    exact h.bind (Performs.pure (f (g x)) w')
  | abrupt | nothing => exact h.bind_error

/-! ## What is known of the calls -/

/--
All calls are on the object and without arguments. Either all of them returned, and then at most a
getter that is no function caused an error; or all but the last one returned, and the error is the
one in which that call ended.
-/
structure Conducted (caller : Caller κ σ) (v : Value) (calls : List (Called κ σ))
    (error? : Option Abrupt) (w' : World κ σ) : Prop where
  receiver : ∀ c ∈ calls, c.this = v ∧ c.args = []
  stops : ((∀ c ∈ calls, c.Returns caller) ∧
      ∀ e, error? = some e → ∃ typeName, e = .threw (.notCallable typeName)) ∨
    ∃ before c e, calls = before ++ [c] ∧ (∀ c ∈ before, c.Returns caller) ∧
      c.run caller = .error e w' ∧ error? = some e

namespace Conducted

variable {error? : Option Abrupt} {b : κ} {x : Value} {e : Abrupt}

theorem nil (w : World κ σ) : Conducted caller v [] none w :=
  ⟨nofun, Or.inl ⟨nofun, nofun⟩⟩

theorem broken (typeName : String) (w : World κ σ) :
    Conducted caller v [] (some (.threw (.notCallable typeName))) w :=
  ⟨nofun, Or.inl ⟨nofun, fun _ he => ⟨typeName, (Option.some.inj he).symm⟩⟩⟩

theorem returned (h : caller b v [] w = .ok x w') :
    Conducted caller v [⟨b, v, [], w⟩] none w' := by
  refine ⟨fun c hc => ?_, Or.inl ⟨fun c hc => ?_, nofun⟩⟩
  · rw [List.mem_singleton.mp hc]
    exact ⟨rfl, rfl⟩
  · rw [List.mem_singleton.mp hc]
    exact ⟨x, w', h⟩

theorem ended (h : caller b v [] w = .error e w') :
    Conducted caller v [⟨b, v, [], w⟩] (some e) w' := by
  refine ⟨fun c hc => ?_, Or.inr ⟨[], ⟨b, v, [], w⟩, e, rfl, nofun, h, rfl⟩⟩
  rw [List.mem_singleton.mp hc]
  exact ⟨rfl, rfl⟩

/-- Calls without an error are followed by others. -/
theorem append (h : Conducted caller v calls none w) (h' : Conducted caller v calls' error? w') :
    Conducted caller v (calls ++ calls') error? w' := by
  have hreturned : ∀ c ∈ calls, c.Returns caller := by
    rcases h.stops with ⟨hr, -⟩ | ⟨_, _, _, -, -, -, he⟩
    · exact hr
    · cases he
  refine ⟨fun c hc => (List.mem_append.mp hc).elim (h.receiver c) (h'.receiver c), ?_⟩
  rcases h'.stops with ⟨hr, he⟩ | ⟨before, c, e, rfl, hr, hc, he⟩
  · exact Or.inl ⟨fun c hc => (List.mem_append.mp hc).elim (hreturned c) (hr c), he⟩
  · refine Or.inr ⟨calls ++ before, c, e, (List.append_assoc ..).symm, fun c hc => ?_, hc, he⟩
    exact (List.mem_append.mp hc).elim (hreturned c) (hr c)

end Conducted

/-- The error in which asking ends, if it does. -/
def Ending.error? : Ending → Option Abrupt
  | abrupt e => some e
  | _ => none

theorem Lookup.conducted {result : EStateM.Result Abrupt (World κ σ) Value}
    (h : Lookup caller v name w calls result) :
    (∀ m w', result = .ok m w' → Conducted caller v calls none w') ∧
      ∀ e w', result = .error e w' → Conducted caller v calls (some e) w' := by
  cases h with
  | data | absent | setOnly => exact ⟨fun _ _ _ => .nil _, nofun⟩
  | getter => exact ⟨fun _ _ => .returned, fun _ _ => .ended⟩
  | broken =>
    refine ⟨nofun, fun _ _ he => ?_⟩
    cases he
    exact .broken _ _

theorem Asks.conducted (h : Asks caller v name w calls ending w') :
    Conducted caller v calls ending.error? w' := by
  obtain ⟨hl, ha⟩ := h
  obtain ⟨hok, herror⟩ := hl.conducted
  cases ha with
  | unread => exact (List.append_nil _).symm ▸ herror _ _ rfl
  | uncallable => exact (hok _ _ rfl).append (.nil _)
  | failed _ hc => exact (hok _ _ rfl).append (.ended hc)
  | object _ hc | plain _ hc => exact (hok _ _ rfl).append (.returned hc)

theorem Asks.isObject_eq_false {x : Value} (h : Asks caller v name w calls (.plain x) w') :
    x.isObject = false := by
  obtain ⟨-, ha⟩ := h
  cases ha
  assumption

theorem AsksAll.conducted {names : List String} (h : AsksAll caller v names w calls ending w') :
    Conducted caller v calls ending.error? w' := by
  induction h with
  | nobody => exact .nil _
  | last ha => exact ha.conducted
  | next ha _ ih => exact ha.conducted.append ih

theorem AsksAll.isObject_eq_false {names : List String} {x : Value}
    (h : AsksAll caller v names w calls (.plain x) w') : x.isObject = false := by
  generalize he : Ending.plain x = ending at h
  induction h with
  | nobody => cases he
  | last ha =>
    subst he
    exact ha.isObject_eq_false
  | next _ _ ih => exact ih he

/-- Two methods give nothing exactly if neither of them does. -/
theorem AsksAll.nothing_iff {first second : String} :
    AsksAll caller v [first, second] w calls .nothing w' ↔ ∃ calls₁ w₁ calls₂,
      Asks caller v first w calls₁ .nothing w₁ ∧ Asks caller v second w₁ calls₂ .nothing w' ∧
        calls = calls₁ ++ calls₂ := by
  constructor
  · rintro (_ | ⟨-, he⟩ | ⟨ha, hrest⟩)
    · exact absurd rfl he
    · rcases hrest with _ | ⟨-, he⟩ | ⟨ha', hrest⟩
      · exact absurd rfl he
      · cases hrest
        exact ⟨_, _, _, ha, ha', by rw [List.append_nil]⟩
  · rintro ⟨calls₁, w₁, calls₂, ha, ha', rfl⟩
    have hlast : AsksAll caller v [second] w₁ (calls₂ ++ []) .nothing w' := .next ha' .nobody
    rw [List.append_nil] at hlast
    exact .next ha hlast

/-! ## Conversions ask -/

namespace Eval

/-- A lookup on an object is one of the listed ones. -/
theorem get_performs (caller : Caller κ σ) (hv : v.isObject = true) (name : String)
    (w : World κ σ) :
    ∃ calls result, Lookup caller v name w calls result ∧
      Performs (get caller v name) (get caller.recorded v name) w calls result := by
  obtain ⟨r, rfl⟩ : ∃ r, v = .object r := by
    cases v with
    | object r => exact ⟨r, rfl⟩
    | _ => cases hv
  simp only [get, objectFor, pure_bind]
  rcases hp : w.heap.find? (.object r) name with _ | ⟨x, wr, e, c⟩ | ⟨_ | g, set, e, c⟩
  · refine ⟨_, _, .absent hp, Performs.look_bind ?_⟩
    rw [hp]
    exact Performs.pure _ w
  · refine ⟨_, _, .data hp, Performs.look_bind ?_⟩
    rw [hp]
    exact Performs.pure _ w
  · refine ⟨_, _, .setOnly hp, Performs.look_bind ?_⟩
    rw [hp]
    exact Performs.pure _ w
  · cases hb : w.heap.behaviour? g with
    | none =>
      refine ⟨_, _, .broken hp hb, Performs.look_bind ?_⟩
      rw [hp]
      exact Performs.call_none hb
    | some b =>
      refine ⟨_, _, .getter hp hb, Performs.look_bind ?_⟩
      rw [hp]
      exact Performs.call hb

/-- What is done with a method that was looked up: `next` goes on if it gives no plain value. -/
def answer (caller : Caller κ σ) (v m : Value) (next : Eval κ σ Value) : Eval κ σ Value := do
  if ← look (·.isCallable m) then
    let x ← call caller m v []
    if x.isObject then next else pure x
  else next

theorem firstPrimitive_cons (caller : Caller κ σ) (v : Value) (name : String)
    (rest : List String) : firstPrimitive caller v (name :: rest) =
      get caller v name >>= fun m => answer caller v m (firstPrimitive caller v rest) := rfl

/-- A method that was looked up answers, and what goes on makes its calls after that. -/
theorem answer_performs (caller : Caller κ σ) (v m : Value) (w : World κ σ) :
    ∃ calls ending w', Answers caller v (.ok m w) calls ending w' ∧
      ∀ (next : Eval κ σ Value) (next' : Eval κ (σ × List (Called κ σ)) Value),
        (ending ≠ .nothing → Performs (answer caller v m next) (answer caller.recorded v m next') w
          calls (ending.result id w')) ∧
        ∀ calls' result, ending = .nothing → Performs next next' w' calls' result →
          Performs (answer caller v m next) (answer caller.recorded v m next') w (calls ++ calls')
            result := by
  cases hm : w.heap.behaviour? m with
  | none =>
    have hm' : w.heap.isCallable m = false := congrArg Option.isSome hm
    refine ⟨[], .nothing, w, .uncallable hm, fun next next' => ⟨(absurd rfl ·), ?_⟩⟩
    intro calls' result _ hnext
    refine Performs.look_bind ?_
    simpa only [hm', Bool.false_eq_true, if_false, List.nil_append] using hnext
  | some b =>
    have hm' : w.heap.isCallable m = true := congrArg Option.isSome hm
    have hcall : Performs (call caller m v []) (call caller.recorded m v []) w
      [⟨b, v, [], w⟩] (caller b v [] w) := Performs.call hm
    cases hc : caller b v [] w with
    | error e w' =>
      rw [hc] at hcall
      refine ⟨_, .abrupt e, w', .failed hm hc, fun next next' => ⟨fun _ => ?_, nofun⟩⟩
      refine Performs.look_bind ?_
      simpa only [hm', if_true, Ending.result] using hcall.bind_error
    | ok x w' =>
      rw [hc] at hcall
      cases hx : x.isObject with
      | true =>
        refine ⟨_, .nothing, w', .object hm hc hx, fun next next' => ⟨(absurd rfl ·), ?_⟩⟩
        intro calls' result _ hnext
        refine Performs.look_bind ?_
        simp only [hm', if_true]
        refine hcall.bind ?_
        simpa only [hx, if_true] using hnext
      | false =>
        refine ⟨_, .plain x, w', .plain hm hc hx, fun next next' => ⟨fun _ => ?_, nofun⟩⟩
        refine Performs.look_bind ?_
        simp only [hm', if_true]
        rw [← List.append_nil [_]]
        refine hcall.bind ?_
        simpa only [hx, Bool.false_eq_true, if_false, Ending.result, id] using Performs.pure x w'

/-- The methods named are asked in turn. -/
theorem firstPrimitive_performs (hv : v.isObject = true) : ∀ (names : List String) (w : World κ σ),
    ∃ calls ending w', AsksAll caller v names w calls ending w' ∧
      Performs (firstPrimitive caller v names) (firstPrimitive caller.recorded v names) w calls
        (ending.result id w')
  | [], w => ⟨[], .nothing, w, .nobody, Performs.fail _ w⟩
  | name :: rest, w => by
    obtain ⟨calls, result, hl, hget⟩ := get_performs caller hv name w
    rw [firstPrimitive_cons, firstPrimitive_cons]
    cases result with
    | error e w' =>
      have ha := Asks.mk hl .unread
      rw [List.append_nil] at ha
      exact ⟨calls, .abrupt e, w', .last ha nofun, hget.bind_error⟩
    | ok m w₁ =>
      obtain ⟨calls₁, ending₁, w₂, ha, hanswer⟩ := answer_performs caller v m w₁
      have hasks := Asks.mk hl ha
      obtain ⟨hend, hgo⟩ := hanswer (firstPrimitive caller v rest)
        (firstPrimitive caller.recorded v rest)
      by_cases he : ending₁ = .nothing
      · subst he
        obtain ⟨calls', ending, w', hall, hrest⟩ := firstPrimitive_performs hv rest w₂
        refine ⟨_, ending, w', .next hasks hall, ?_⟩
        rw [List.append_assoc]
        exact hget.bind (hgo calls' _ rfl hrest)
      · exact ⟨_, ending₁, w₂, .last hasks he, hget.bind (hend he)⟩

/-- A plain value is converted without any call, and an object by asking its methods in turn. -/
theorem toPrimitive_performs (caller : Caller κ σ) (v : Value) (hint : Hint) (w : World κ σ) :
    if v.isObject then
      ∃ calls ending w', AsksAll caller v hint.methods w calls ending w' ∧
        Performs (toPrimitive caller v hint) (toPrimitive caller.recorded v hint) w calls
          (ending.result id w')
    else
      Performs (toPrimitive caller v hint) (toPrimitive caller.recorded v hint) w []
        ((Ending.plain v).result id w) := by
  cases hv : v.isObject with
  | true =>
    simp only [toPrimitive, hv, if_true]
    exact firstPrimitive_performs hv hint.methods w
  | false =>
    simp only [toPrimitive, hv, Bool.false_eq_true, if_false]
    exact Performs.pure v w

/-- The conversions of a value: all of them make the same calls and go on from the same value. -/
structure Converts (caller : Caller κ σ) (v : Value) (hint : Hint) (w : World κ σ)
    (calls : List (Called κ σ)) (ending : Ending) (w' : World κ σ) : Prop where
  primitive : Performs (toPrimitive caller v hint) (toPrimitive caller.recorded v hint) w calls
    (ending.result id w')
  number : hint = .number → Performs (toNumber caller v) (toNumber caller.recorded v) w calls
    (ending.result (·.plainNumber) w')
  integer : hint = .number → Performs (toInteger caller v) (toInteger caller.recorded v) w calls
    (ending.result (·.plainNumber.toInteger) w')
  uint32 : hint = .number → Performs (toUint32 caller v) (toUint32 caller.recorded v) w calls
    (ending.result (·.plainNumber.toUint32) w')
  text : hint = .string → Performs (toText caller v) (toText caller.recorded v) w calls
    (ending.result (·.plainText) w')

theorem Converts.of_primitive {hint : Hint}
    (h : Performs (toPrimitive caller v hint) (toPrimitive caller.recorded v hint) w calls
      (ending.result id w')) : Converts caller v hint w calls ending w' where
  primitive := h
  number he := by
    subst he
    exact h.map Value.plainNumber
  integer he := by
    subst he
    exact (h.map Value.plainNumber).map Double.toInteger
  uint32 he := by
    subst he
    exact (h.map Value.plainNumber).map Double.toUint32
  text he := by
    subst he
    exact h.map Value.plainText

/-- A plain value that an object was converted to is converted as the object was. -/
theorem bind_toPrimitive {hint : Hint} (hv : v.isObject = true) {f : Value → Eval κ σ α}
    {g : Value → α} (hf : ∀ x w, x.isObject = false → f x w = .ok (g x) w) :
    (do return g (← toPrimitive caller v hint)) = toPrimitive caller v hint >>= f := by
  funext w
  have h := toPrimitive_performs caller v hint w
  rw [if_pos hv] at h
  obtain ⟨calls, ending, w', hall, hperforms⟩ := h
  cases ending with
  | plain x =>
    rw [bind_of_ok hperforms.1, bind_of_ok hperforms.1]
    exact (hf _ _ hall.isObject_eq_false).symm
  | abrupt | nothing => rw [bind_of_error hperforms.1, bind_of_error hperforms.1]

theorem toText_plain {caller : Caller κ σ} {v : Value} {w : World κ σ} (hv : v.isObject = false) :
    toText caller v w = .ok v.plainText w := by
  have hp : toPrimitive caller v .string w = .ok v w := by
    rw [toPrimitive, if_neg (by simp [hv])]
    rfl
  rw [toText, bind_of_ok hp]
  rfl

/-- The number of a value, by recursion on the plain value of an object. -/
theorem toNumber_eq (caller : Caller κ σ) (v : Value) : toNumber caller v =
    if v.isObject then toPrimitive caller v .number >>= toNumber caller
    else pure v.plainNumber := by
  split
  · rename_i hv
    exact bind_toPrimitive hv fun _ _ => toNumber_plain
  · rename_i hv
    funext w
    exact toNumber_plain (by simpa using hv)

/-- The text of a value, by recursion on the plain value of an object. -/
theorem toText_eq (caller : Caller κ σ) (v : Value) : toText caller v =
    if v.isObject then toPrimitive caller v .string >>= toText caller else pure v.plainText := by
  split
  · rename_i hv
    exact bind_toPrimitive hv fun _ _ => toText_plain
  · rename_i hv
    funext w
    exact toText_plain (by simpa using hv)

/--
**Every conversion of an object asks its two methods in turn, once.** For every way to run functions
and in every world:

* a plain value is converted without any call;
* for an object there is one way in which the two methods are asked. Each is looked up and called at
  most once, and the second is asked in the world that the first left, only if there was neither a
  plain value nor an error. The conversions to a plain value, a number, a whole number, a number
  modulo `2 ^ 32` and a text make exactly these calls and no others;
* all calls are on the object and without arguments. An error that ends a call, be it that calls are
  nested too deeply, ends the conversion unchanged and at once. The only others are that of a getter
  that is no function and the conversion's own, which is thrown exactly if neither method gave a
  plain value;
* what a method gave is plain, and converting it further makes no call.
-/
theorem converts_once (caller : Caller κ σ) (v : Value) (hint : Hint) (w : World κ σ) :
    let first := if hint = .string then "toString" else "valueOf"
    let second := if hint = .string then "valueOf" else "toString"
    (if v.isObject then
      ∃ calls ending w',
        (∀ calls₁ ending₁ w₁, AsksAll caller v [first, second] w calls₁ ending₁ w₁ ↔
          calls₁ = calls ∧ ending₁ = ending ∧ w₁ = w') ∧
        Converts caller v hint w calls ending w' ∧
        Conducted caller v calls ending.error? w' ∧
        (∀ x, ending = .plain x → x.isObject = false) ∧
        (ending = .nothing ↔ ∃ calls₁ w₁ calls₂ w₂, Asks caller v first w calls₁ .nothing w₁ ∧
          Asks caller v second w₁ calls₂ .nothing w₂)
    else Converts caller v hint w [] (.plain v) w) ∧
    toNumber caller v = (if v.isObject then toPrimitive caller v .number >>= toNumber caller
      else pure v.plainNumber) ∧
    toText caller v = (if v.isObject then toPrimitive caller v .string >>= toText caller
      else pure v.plainText) := by
  intro first second
  have hmethods : hint.methods = [first, second] := by
    cases hint <;> rfl
  refine ⟨?_, toNumber_eq caller v, toText_eq caller v⟩
  have h := toPrimitive_performs caller v hint w
  rw [hmethods] at h
  cases hv : v.isObject with
  | false =>
    simp only [hv, Bool.false_eq_true, if_false] at h ⊢
    exact .of_primitive h
  | true =>
    simp only [hv, if_true] at h ⊢
    obtain ⟨calls, ending, w', hall, hperforms⟩ := h
    refine ⟨calls, ending, w', fun calls₁ ending₁ w₁ => ⟨fun h => ?_, ?_⟩,
      .of_primitive hperforms, hall.conducted, ?_, ?_, ?_⟩
    · exact h.unique hall
    · rintro ⟨rfl, rfl, rfl⟩
      exact hall
    · rintro x rfl
      exact hall.isObject_eq_false
    · rintro rfl
      obtain ⟨calls₁, w₁, calls₂, h₁, h₂, -⟩ := AsksAll.nothing_iff.mp hall
      exact ⟨calls₁, w₁, calls₂, w', h₁, h₂⟩
    · rintro ⟨calls₁, w₁, calls₂, w₂, h₁, h₂⟩
      have hnone := AsksAll.nothing_iff.mpr ⟨calls₁, w₁, calls₂, h₁, h₂, rfl⟩
      exact (hall.unique hnone).2.1

end Eval

end Es5
