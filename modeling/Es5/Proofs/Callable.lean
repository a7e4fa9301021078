import Es5.Proofs.Chain
import Es5.Proofs.RoundTrip

/-!
# Getters and setters that are functions

A descriptor that is read from an object has functions or undefined as getter and setter, whatever
code the reading runs. Where properties are defined by such descriptors only, every accessor that
is stored has functions, and reading and assigning call them.

* `Descriptor.callableIn_of_readDescriptor`: what is read.
* `callable_invariant`: what is stored.
* `Rule.vetted`: getters and setters that are given directly are functions.
* **`Eval.accessors_are_callable`**: what is read, and what is stored in every world reached.
-/

namespace Es5

variable {κ σ : Type}

/-! ## Properties made from descriptors -/

instance (h : Heap κ) (d : Descriptor) : Decidable (d.CallableIn h) :=
  decidable_of_iff
    ((∀ f ∈ d.get, f = .undefined ∨ h.isCallable f = true) ∧
      ∀ f ∈ d.set, f = .undefined ∨ h.isCallable f = true)
    ⟨fun hd f hf => hf.elim (hd.1 f) (hd.2 f), fun hd =>
      ⟨fun f hf => hd f (Or.inl hf), fun f hf => hd f (Or.inr hf)⟩⟩

instance (h : Heap κ) : DecidablePred (Property.CallableIn h)
  | .data .. => isTrue trivial
  | .accessor get set _ _ =>
    decidable_of_iff ((∀ f ∈ get, h.isCallable f = true) ∧ ∀ f ∈ set, h.isCallable f = true)
      ⟨fun hp f hf => hf.elim (hp.1 f) (hp.2 f), fun hp =>
        ⟨fun f hf => hp f (Or.inl hf), fun f hf => hp f (Or.inr hf)⟩⟩

variable {h h' : Heap κ} {d : Descriptor} {p : Property}

theorem Property.callableIn_of_isData (hp : p.isData = true) : p.CallableIn h := by
  cases p with
  | data => trivial
  | accessor => cases hp

theorem Property.CallableIn.later (hlater : h.Later h') (hp : p.CallableIn h) :
    p.CallableIn h' := by
  cases p with
  | data => trivial
  | accessor => exact fun f hf => hlater.isCallable (hp f hf)

theorem Descriptor.CallableIn.later (hlater : h.Later h') (hd : d.CallableIn h) :
    d.CallableIn h' := fun f hf => (hd f hf).imp_right hlater.isCallable

namespace Descriptor

/-- What is stored for a half of an accessor is never undefined. -/
theorem of_slot {half : Option Value} {f : Value} (hf : slot half = some f) :
    half = some f ∧ f ≠ .undefined := by
  obtain ⟨rfl, hne⟩ := Option.filter_eq_some_iff.mp hf
  exact ⟨rfl, by simpa using hne⟩

namespace CallableIn

variable (hd : d.CallableIn h)

include hd

theorem slot_get {f : Value} (hf : slot d.get = some f) : h.isCallable f = true := by
  obtain ⟨hget, hne⟩ := of_slot hf
  exact (hd f (Or.inl hget)).resolve_left hne

theorem slot_set {f : Value} (hf : slot d.set = some f) : h.isCallable f = true := by
  obtain ⟨hset, hne⟩ := of_slot hf
  exact (hd f (Or.inr hset)).resolve_left hne

theorem create_callable : d.create.CallableIn h := by
  unfold create
  dsimp only
  split
  · exact fun f hf => hf.elim hd.slot_get hd.slot_set
  · trivial

theorem update_callable (hp : p.CallableIn h) : (d.update p).CallableIn h := by
  cases p with
  | data => trivial
  | accessor g s e c =>
    rintro f (hf | hf)
    · split at hf
      · exact hd.slot_get hf
      · exact hp f (Or.inl hf)
    · split at hf
      · exact hd.slot_set hf
      · exact hp f (Or.inr hf)

/-- A definition by functions stores functions. -/
theorem applyTo {extensible : Bool} {current : Option Property}
    (hcurrent : ∀ q, current = some q → q.CallableIn h)
    (happly : d.applyTo? extensible current = some p) : p.CallableIn h := by
  cases current with
  | none =>
    rw [applyTo?] at happly
    split at happly
    · cases happly
      exact hd.create_callable
    · cases happly
  | some q =>
    have hq := hcurrent q rfl
    rw [applyTo?_some] at happly
    split at happly
    · cases happly
      exact hq
    · split at happly
      · cases happly
        refine hd.update_callable ?_
        split
        · cases q with
          | data => exact fun f hf => by rcases hf with hf | hf <;> cases hf
          | accessor => trivial
        · exact hq
      · cases happly

end CallableIn

end Descriptor

/-! ## Descriptors that are read -/

namespace Eval

variable {caller : Caller κ σ} {w w' : World κ σ} {v : Value} {key : String}

/-- A half of an accessor is tested after it was read, in the world in which the reading ends. -/
theorem callable_of_accessorField? {half : Option Value}
    (h : accessorField? caller v key w = .ok half w') {f : Value} (hf : half = some f) :
    f = .undefined ∨ w'.heap.isCallable f = true := by
  subst hf
  obtain ⟨field, w₁, -, h⟩ := ok_of_bind h
  cases field with
  | none => cases h
  | some g =>
    obtain ⟨callable, w₂, hlook, h⟩ := ok_of_bind h
    injection hlook with hcallable hw
    subst hw
    split at h
    · rename_i htest
      cases h
      rw [← hcallable] at htest
      simpa using htest
    · cases h

variable (hc : CallsAlong Heap.Later caller)

include hc

/-- **The getter and the setter that are read are functions or undefined**, and no descriptor is
read of both kinds. -/
theorem callableIn_of_readDescriptor (h : readDescriptor caller v w = .ok d w') :
    (d.isData && d.isAccessor) = false ∧ d.CallableIn w'.heap := by
  unfold readDescriptor at h
  split at h
  · cases h
  · obtain ⟨enumerable, w₁, -, h⟩ := ok_of_bind h
    obtain ⟨configurable, w₂, -, h⟩ := ok_of_bind h
    obtain ⟨value, w₃, -, h⟩ := ok_of_bind h
    obtain ⟨writable, w₄, -, h⟩ := ok_of_bind h
    obtain ⟨get, w₅, hget, h⟩ := ok_of_bind h
    obtain ⟨set, w₆, hset, h⟩ := ok_of_bind h
    dsimp only at h
    split at h
    · cases h
    · rename_i hmixed
      cases h
      refine ⟨by simpa using hmixed, fun f hf => ?_⟩
      -- The setter is read after the getter was tested, and calls leave functions what they are.
      have hlater := (Heap.Later.evolution.accessorField? hc v "set" w₅).ok hset
      rcases hf with hf | hf
      · exact (callable_of_accessorField? hget hf).imp_right hlater.isCallable
      · exact callable_of_accessorField? hset hf

end Eval

/-! ## Worlds reached from nothing -/

/-- Getters and setters of the object are functions. -/
def ObjectRecord.CallableIn (h : Heap κ) (o : ObjectRecord κ) : Prop :=
  ∀ x ∈ o.properties, x.2.CallableIn h

theorem ObjectRecord.callableIn_of_data {o : ObjectRecord κ}
    (ho : ∀ x ∈ o.properties, x.2.isData = true) : o.CallableIn h := fun x hx =>
  Property.callableIn_of_isData (ho x hx)

theorem ObjectRecord.CallableIn.insert {o : ObjectRecord κ} (ho : o.CallableIn h)
    (hp : p.CallableIn h) (key : String) : (o.insert key p).CallableIn h := fun x hx => by
  rcases Properties.mem_of_mem_insert hx with hmem | rfl
  · exact ho x hmem
  · exact hp

theorem callable_invariant : Heap.Invariant (fun h _ o => ObjectRecord.CallableIn h o)
    fun (h : Heap (Behaviour σ)) get set => Descriptor.CallableIn h { get, set } where
  later hlater ho x hx := (ho x hx).later hlater
  plain ho := ObjectRecord.callableIn_of_data ho.data
  close ho := ho
  store ho hp := ho.insert (Property.callableIn_of_isData hp) _
  insert {h _ o key d p} ho hd happly := by
    have hd : d.CallableIn h := hd
    exact ho.insert (hd.applyTo (fun q hq => ho (key, q) (Properties.mem_of_get? hq)) happly) key
  erase _ ho x hx := ho x (Properties.mem_of_mem_erase hx)
  halves_none _ _ hf := by rcases hf with hf | hf <;> cases hf
  halves_later hlater hd := hd.later hlater

theorem Heap.callableIn_of_own? {v : Value} {key : String}
    (hall : h.All fun h _ o => ObjectRecord.CallableIn h o) (hp : h.own? v key = some p) :
    p.CallableIn h := by
  cases v with
  | object r =>
    obtain ⟨o, ho, hown⟩ := Option.bind_eq_some_iff.mp hp
    exact hall r o ho (key, p) (Properties.mem_of_get? hown)
  | _ => cases hp

/--
No direct edits, and getters and setters that are given directly are functions: those of a
descriptor that is not read from an object, and those of an object that is made with properties.
-/
def Rule.vetted : Rule σ
  | _, .perform (.define _ _ d _), w => decide (d.CallableIn w.heap)
  | _, .perform op, _ => !op.isEdit
  | _, .build shape, w => shape.properties.all fun x => decide (x.2.CallableIn w.heap)
  | _, _, _ => true

theorem Rule.vetted_keeps :
    (vetted : Rule σ).Keeps (Heap.Keeps fun h _ o => ObjectRecord.CallableIn h o) := by
  have hQ := @callable_invariant σ
  have hdescribes : ∀ {caller : Caller (Behaviour σ) σ},
      Eval.CallsAlong (Heap.Keeps fun h _ o => ObjectRecord.CallableIn h o) caller →
        ∀ v key attributes w, Eval.Describes
          (fun h _ _ d => Descriptor.CallableIn h { get := d.get, set := d.set })
          caller v key attributes w := by
    intro caller hc v key attributes w name w₁ d w₂ _ hd
    exact (Eval.callableIn_of_readDescriptor (fun f this args w => (hc f this args w).1) hd).2
  have hempty : ∀ {h : Heap (Behaviour σ)} {o : ObjectRecord (Behaviour σ)}, o.properties = [] →
      o.CallableIn h := fun ho x hx => by
    rw [ho] at hx
    cases hx
  refine ⟨?_, ?_, ?_, ?_⟩
  · intro caller hc op w h
    refine hQ.course.run hc (hQ.newRealm w) ?_
    cases op with
    | store | unstore | setPrototype => cases h
    | put v key value strict =>
      intro d _ hget hset
      show Descriptor.CallableIn w.heap { get := d.get, set := d.set }
      rw [hget, hset]
      exact hQ.halves_none w.heap
    | define v key d strict =>
      have hd : d.CallableIn w.heap := of_decide_eq_true h
      exact hd
    | defineProperty v key attributes => exact hdescribes hc v key attributes w
    | newObject => exact fun _ => hempty rfl
    | newArray values =>
      exact fun _ => ObjectRecord.callableIn_of_data
        (Properties.data_indexed (fun _ => rfl) rfl values)
    | _ => exact trivial
  · intro caller hc i this args w _ _
    refine hQ.course.provided hc ?_
    cases i with
    | toObject => exact fun _ => hempty rfl
    | getOwnPropertyDescriptor => exact fun _ _ _ _ => hempty rfl
    | defineProperty =>
      exact hdescribes hc (argument args 0) (argument args 1) (argument args 2) w
    | _ => exact trivial
  · exact fun _ _ => hQ.keeps_push fun _ => hempty rfl
  · intro caller shape w body h
    refine hQ.keeps_push fun _ x hx => ?_
    have hx := of_decide_eq_true (List.all_eq_true.mp h x hx)
    exact hx.later (.push _ _)

/-! ## Reading and assigning accessors -/

namespace Eval

variable {caller : Caller κ σ} {w : World κ σ} {v getter setter value : Value} {key : String}
  {get? set? : Option Value} {e c : Bool}

theorem get_of_getter (caller : Caller κ σ)
    (hp : w.heap.find? v key = some (.accessor (some getter) set? e c)) :
    get caller v key w = call caller getter v [] w := by
  cases v with
  | object r => rw [get_object, hp]
  | _ =>
    obtain hown | ⟨-, hinherited⟩ := Heap.find?_cases hp
    · cases hown
    · cases hinherited

theorem putWith_of_setter (caller : Caller κ σ)
    (hp : w.heap.find? v key = some (.accessor get? (some setter) e c)) (strict : Bool) :
    putWith caller v key value strict w =
      (call caller setter v [value] >>= fun _ => pure ()) w := by
  have hcan : w.heap.canPut v key = true := Heap.canPut_of_accessor hp
  cases v with
  | object r =>
    simp only [putWith, objectFor, look, bind, EStateM.bind, pure, EStateM.pure, hcan, if_true, hp]
    obtain hown | ⟨hown, -⟩ := Heap.find?_cases hp
    · rw [hown]
      rfl
    · rw [hown]
      rfl
  | _ =>
    obtain hown | ⟨-, hinherited⟩ := Heap.find?_cases hp
    · cases hown
    · cases hinherited

end Eval

theorem Rule.anything_keeps : (anything : Rule σ).Keeps Heap.Later where
  perform {caller} hc op w _ := by
    cases hedit : op.isEdit with
    | false =>
      have hop : noEdits caller (.perform op) w = true := by
        show (!op.isEdit) = true
        rw [hedit]
        rfl
      exact Heap.Later.evolution.run hc (noEdits_ensures caller (.perform op) w hop)
    | true =>
      cases op with
      | store v key p | unstore v key | setPrototype v proto =>
        cases v with
        | object r => exact Heap.Later.update w.heap r fun _ => rfl
        | _ => exact Heap.Later.refl w.heap
      | _ => cases hedit
  provided {caller} hc i this args w _ _ :=
    Heap.Later.evolution.provided hc (noEdits_ensures caller (.provided i this args) w rfl)
  function _ _ := Heap.Later.push _ _
  build _ _ := Heap.Later.push _ _

/-- Calls of whatever code leave the functions that there are. -/
theorem Eval.calls_later (depth : Nat) :
    CallsAlong Heap.Later (runBehaviour depth : Caller (Behaviour σ) σ) := by
  rw [← behaviourUnder_anything]
  exact Heap.Later.evolution.behaviourUnder Rule.anything_keeps depth

/--
**Getters and setters are functions.** A descriptor that is read from an object, whatever code that
runs, is not of both kinds, and its getter and setter are functions or undefined, also after any
other code ran. In a world that user code reaches from nothing, where it makes no direct edits and
gives no getters and setters directly but functions, getter and setter of each accessor are
functions. So reading an accessor is the call of its getter and assigning to it the call of its
setter, on the object asked: neither fails by itself.
-/
theorem Eval.accessors_are_callable (s : σ) :
    (∀ depth v (w : World (Behaviour σ) σ) d w',
      readDescriptor (runBehaviour depth) v w = .ok d w' →
        (d.isData && d.isAccessor) = false ∧ d.CallableIn w'.heap ∧
        ∀ w'', w'.ReachesUnder Rule.anything w'' → d.CallableIn w''.heap) ∧
    ∀ w, World.ReachesUnder Rule.vetted ⟨#[], s⟩ w →
      (∀ v key p, w.heap.own? v key = some p → p.CallableIn w.heap) ∧
      (∀ v key getter set e c, w.heap.find? v key = some (.accessor (some getter) set e c) →
        ∃ b, (w.heap.record? getter).bind (·.call) = some b ∧
          ∀ caller : Caller (Behaviour σ) σ, get caller v key w = caller b v [] w) ∧
      ∀ v key get setter e c, w.heap.find? v key = some (.accessor get (some setter) e c) →
        ∃ b, (w.heap.record? setter).bind (·.call) = some b ∧
          ∀ (caller : Caller (Behaviour σ) σ) value strict, putWith caller v key value strict w =
            (caller b v [value] >>= fun _ => pure ()) w := by
  refine ⟨fun depth v w d w' hread => ?_, fun w hw => ?_⟩
  · obtain ⟨hkinds, hd⟩ := callableIn_of_readDescriptor (calls_later depth) hread
    exact ⟨hkinds, hd, fun w'' hw'' =>
      hd.later (hw''.along Heap.Later.evolution.toPassage Rule.anything_keeps)⟩
  · have hkeeps := hw.along callable_invariant.passage Rule.vetted_keeps
    have hall := hkeeps.2 (Heap.all_empty _)
    have hfound : ∀ v key p, w.heap.find? v key = some p → p.CallableIn w.heap :=
      fun v key p hp => by
        obtain ⟨u, hu⟩ := Heap.exists_of_findWithin hp
        exact Heap.callableIn_of_own? hall hu
    refine ⟨fun v key p => Heap.callableIn_of_own? hall, ?_, ?_⟩
    · intro v key getter set e c hp
      obtain ⟨b, hb⟩ := Option.isSome_iff_exists.mp (hfound v key _ hp getter (Or.inl rfl))
      exact ⟨b, hb, fun caller => by rw [get_of_getter caller hp, call_of_callable hb]⟩
    · intro v key get setter e c hp
      obtain ⟨b, hb⟩ := Option.isSome_iff_exists.mp (hfound v key _ hp setter (Or.inr rfl))
      refine ⟨b, hb, fun caller value strict => ?_⟩
      rw [putWith_of_setter caller hp]
      simp only [bind, EStateM.bind, call_of_callable hb]

/-- User code with a function that adds itself as a getter to the description it is read from. -/
def defineGetter : Program Unit :=
  .function none (fun this _ => .perform (.put this "get" (.object 0) false) fun _ => .done this)
    fun getter =>
  .build { kind := .object,
           properties := [("enumerable", .accessor (some getter) none true true)] }
    (fun this _ => .done this) fun attributes =>
  .perform (.newObject none) fun _ =>
  .perform (.defineProperty (.object 2) (.string "p") attributes) fun _ => .done .undefined

/-- The world that `defineGetter` reaches from nothing. -/
def definedWorld : World (Behaviour Unit) Unit :=
  Eval.after (defineGetter.runUnder Rule.vetted (behaviourUnder Rule.vetted 1)) ⟨#[], ()⟩

/-- A description that changes while it is read, and the accessor that was defined by it. -/
theorem Eval.accessors_are_callable_defined :
    let d : Descriptor := { get := some (.object 0), enumerable := some true }
    World.ReachesUnder Rule.vetted ⟨#[], ()⟩ definedWorld ∧
      (∃ w', readDescriptor (runBehaviour 1) (.object 1) definedWorld = .ok d w' ∧
        d.CallableIn w'.heap) ∧
      ∃ b, ∀ caller : Caller (Behaviour Unit) Unit,
        get caller (.object 2) "p" definedWorld = caller b (.object 2) [] definedWorld := by
  intro d
  have hw : World.ReachesUnder Rule.vetted ⟨#[], ()⟩ definedWorld :=
    ⟨Rule.vetted, 1, defineGetter, fun _ _ _ => id, rfl⟩
  obtain ⟨hread, hreached⟩ := accessors_are_callable ()
  have hresult : result? (readDescriptor (runBehaviour 1) (.object 1)) definedWorld = some d := by
    decide +kernel
  obtain ⟨w', hw'⟩ := ok_of_result? hresult
  have hp : definedWorld.heap.find? (.object 2) "p" =
      some (.accessor (some (.object 0)) none true false) := by decide +kernel
  obtain ⟨b, -, hget⟩ := (hreached definedWorld hw).2.1 _ _ _ _ _ _ hp
  exact ⟨hw, ⟨w', hw', (hread 1 _ _ d w' hw').2.1⟩, b, hget⟩

end Es5
