import Es5.Proofs.Invariant
import Mathlib.Logic.Relation

/-!
# Chains of prototypes

Where prototypes are only given to objects as they are made, a prototype is older than the objects
that inherit from it. So no object is on its own chain of prototypes, and what is found under a key
is the property of the first object on the chain that has it.

* `Heap.Grounded`: every prototype stands before the objects that inherit from it.
* `Heap.Chain v vs`: from `v` on, the chain of prototypes is `vs`, and ends.
* `Rule.grounded`: a prototype is given only to a new object, and exists before it.
* **`Chain.find?_eq`**: the nearest property is that of the first object that has one.
* **`World.ReachesUnder.chains_end`**: all of this in every world reached.
-/

namespace Es5

variable {κ σ : Type}

/-! ## Grounded heaps -/

/-- Every prototype stands before the objects that inherit from it. -/
def Heap.Grounded (h : Heap κ) : Prop :=
  ∀ r r' : Ref, h.prototype? (.object r) = some (.object r') → r' < r

/-- From `v` on, the chain of prototypes is `vs`, and ends. -/
inductive Heap.Chain (h : Heap κ) : Value → List Value → Prop where
  | last {v : Value} (hv : h.prototype? v = none) : Chain h v [v]
  | up {v proto : Value} {vs : List Value} (hv : h.prototype? v = some proto)
    (hvs : Chain h proto vs) : Chain h v (v :: vs)

/-- Whether an assignment is accepted, given the nearest property under the key. -/
def Heap.canPutOn (h : Heap κ) (v : Value) (key : String) : Option Property → Bool
  | none => h.isExtensible v
  | some (.accessor _ set _ _) => set.isSome
  | some (.data _ writable _ _) => writable && ((h.own? v key).isSome || h.isExtensible v)

/-- The place of an object, counted from one; other values are below every object. -/
def Value.height : Value → Nat
  | object r => r + 1
  | _ => 0

namespace Heap

variable {h : Heap κ} {v u u' : Value} {key : String} {o : ObjectRecord κ} {p : Property}

theorem height_le_size (ho : h.record? v = some o) : v.height ≤ h.size := by
  cases v with
  | object r => exact (Array.getElem?_eq_some_iff.mp ho).1
  | _ => cases ho

namespace Grounded

variable (hg : h.Grounded)

include hg

theorem height_lt (hu : h.prototype? u = some u') : u'.height < u.height := by
  cases u with
  | object r =>
    cases u' with
    | object r' => exact Nat.succ_lt_succ (hg r r' hu)
    | _ => exact Nat.succ_pos r
  | _ => cases hu

theorem height_lt_of_transGen
    (hpath : Relation.TransGen (fun u u' => h.prototype? u = some u') u u') :
    u'.height < u.height := by
  induction hpath with
  | single hu => exact hg.height_lt hu
  | tail _ hu ih => exact Nat.lt_trans (hg.height_lt hu) ih

/-- **No object is on its own chain of prototypes.** -/
theorem acyclic (v : Value) : ¬Relation.TransGen (fun u u' => h.prototype? u = some u') v v := by
  intro hcycle
  exact Nat.lt_irrefl _ (hg.height_lt_of_transGen hcycle)

/-- Every chain of prototypes ends. -/
theorem exists_chain (v : Value) : ∃ vs, h.Chain v vs := by
  induction hv : v.height using Nat.strongRecOn generalizing v with
  | ind n ih =>
    cases hproto : h.prototype? v with
    | none => exact ⟨_, .last hproto⟩
    | some proto =>
      obtain ⟨vs, hvs⟩ := ih proto.height (hv ▸ hg.height_lt hproto) proto rfl
      exact ⟨_, .up hproto hvs⟩

end Grounded

/-! ## Looking keys up -/

theorem exists_of_findWithin : ∀ {fuel : Nat} {v : Value},
    h.findWithin key fuel v = some p → ∃ u, h.own? u key = some p
  | 0, _, hp => nomatch hp
  | fuel + 1, v, hp => by
    rw [findWithin] at hp
    cases hown : h.own? v key with
    | some q =>
      rw [hown] at hp
      exact ⟨v, hown.trans hp⟩
    | none =>
      rw [hown] at hp
      cases hproto : h.prototype? v with
      | none =>
        rw [hproto] at hp
        cases hp
      | some proto =>
        rw [hproto] at hp
        exact exists_of_findWithin hp

/-- What is found among some objects is found among more. -/
theorem findWithin_succ : ∀ {fuel : Nat} {v : Value},
    h.findWithin key fuel v = some p → h.findWithin key (fuel + 1) v = some p
  | 0, _, hp => nomatch hp
  | fuel + 1, v, hp => by
    rw [findWithin] at hp ⊢
    cases hown : h.own? v key with
    | some q =>
      rw [hown] at hp
      exact hp
    | none =>
      rw [hown] at hp
      cases hproto : h.prototype? v with
      | none =>
        rw [hproto] at hp
        cases hp
      | some proto =>
        rw [hproto] at hp
        exact findWithin_succ hp

/-- The property that is found is an own one, or is found up the prototypes. -/
theorem find?_cases (hp : h.find? v key = some p) : h.own? v key = some p ∨
    h.own? v key = none ∧ (h.prototype? v).bind (h.find? · key) = some p := by
  rw [find?] at hp
  cases hsize : h.size with
  | zero =>
    rw [hsize] at hp
    cases hp
  | succ n =>
    rw [hsize, findWithin] at hp
    cases hown : h.own? v key with
    | some q =>
      rw [hown] at hp
      exact Or.inl hp
    | none =>
      rw [hown] at hp
      refine Or.inr ⟨rfl, ?_⟩
      cases hproto : h.prototype? v with
      | none =>
        rw [hproto] at hp
        cases hp
      | some proto =>
        rw [hproto] at hp
        rw [Option.bind_some, find?, hsize]
        exact findWithin_succ hp

/-- An accessor accepts assignments if it has a setter, wherever it is found. -/
theorem canPut_of_accessor {get set : Option Value} {e c : Bool}
    (hp : h.find? v key = some (.accessor get set e c)) : h.canPut v key = set.isSome := by
  rw [canPut]
  rcases find?_cases hp with hown | ⟨hown, hinherited⟩
  · rw [hown]
    rfl
  · rw [hown, hinherited]

namespace Chain

variable {vs : List Value}

/-- A lookup that may pass as many objects as stand up to its start misses none. -/
theorem findWithin_eq (hg : h.Grounded) (hvs : h.Chain v vs) : ∀ fuel,
    (∀ o, h.record? v = some o → v.height ≤ fuel) →
      h.findWithin key fuel v = vs.findSome? (h.own? · key) := by
  induction hvs with
  | @last v hv =>
    intro fuel hfuel
    rw [List.findSome?_cons, List.findSome?_nil]
    cases fuel with
    | zero =>
      have hown : h.own? v key = none := by
        cases ho : h.record? v with
        | none => rw [own?, ho, Option.bind_none]
        | some o =>
          cases v with
          | object r => exact absurd (hfuel o ho) (Nat.not_succ_le_zero r)
          | _ => cases ho
      rw [findWithin, hown]
    | succ fuel =>
      rw [findWithin, hv]
      cases h.own? v key <;> rfl
  | @up v proto vs hv _ ih =>
    intro fuel hfuel
    obtain ⟨o, ho, -⟩ := Option.bind_eq_some_iff.mp hv
    have hlt := hg.height_lt hv
    have hle := hfuel o ho
    obtain ⟨fuel, rfl⟩ : ∃ n, fuel = n + 1 := ⟨fuel - 1, by omega⟩
    rw [findWithin, List.findSome?_cons, hv]
    cases h.own? v key with
    | none => exact ih fuel fun _ _ => by omega
    | some p => rfl

/-- **The nearest property is that of the first object on the chain that has one.** -/
theorem find?_eq (hg : h.Grounded) (hvs : h.Chain v vs) (key : String) :
    h.find? v key = vs.findSome? (h.own? · key) :=
  hvs.findWithin_eq hg h.size fun _ ho => height_le_size ho

/-- An assignment is accepted or not by the nearest property. -/
theorem canPut_eq (hg : h.Grounded) (hvs : h.Chain v vs) (key : String) :
    h.canPut v key = h.canPutOn v key (vs.findSome? (h.own? · key)) := by
  have hinherited : (h.prototype? v).bind (h.find? · key) =
      vs.tail.findSome? (h.own? · key) := by
    cases hvs with
    | last hv => rw [hv, Option.bind_none, List.tail_cons, List.findSome?_nil]
    | up hv hproto => rw [hv, Option.bind_some, hproto.find?_eq hg, List.tail_cons]
  have hcons : vs = v :: vs.tail := by cases hvs <;> rfl
  rw [canPut, hinherited, hcons, List.findSome?_cons, List.tail_cons]
  cases hown : h.own? v key with
  | some p => cases p <;> simp [canPutOn, Property.acceptsWrite, hown]
  | none =>
    rcases vs.tail.findSome? (h.own? · key) with _ | ⟨_ | _⟩ <;>
      simp [canPutOn, hown, Bool.and_comm]

end Chain

end Heap

/-! ## Reading properties that were found -/

namespace Eval

variable {caller : Caller κ σ} {w : World κ σ} {v : Value} {key : String}

theorem call_of_callable {f : Value} {b : κ} (hf : (w.heap.record? f).bind (·.call) = some b)
    (this : Value) (args : List Value) : call caller f this args w = caller b this args w := by
  simp only [call, look, bind, EStateM.bind, hf]

/-- Reading goes by the property that was found; a getter has the object asked as its receiver. -/
theorem get_object (caller : Caller κ σ) (r : Ref) (key : String) (w : World κ σ) :
    get caller (.object r) key w =
      (match w.heap.find? (.object r) key with
        | some (.data value _ _ _) => pure value
        | some (.accessor (some getter) _ _ _) => call caller getter (.object r) []
        | _ => pure .undefined : Eval κ σ Value) w := rfl

end Eval

/-! ## Worlds reached from nothing -/

/-- The prototype of an object is older, and the object that it holds as a function exists. -/
structure ObjectRecord.GroundedAt (h : Heap (Behaviour σ)) (r : Ref)
    (o : ObjectRecord (Behaviour σ)) : Prop where
  prototype : ∀ r', o.prototype = some (.object r') → r' < r
  held : ∀ b, o.call = some b → h.contains b.held? = true

namespace ObjectRecord

theorem groundedAt_invariant :
    Heap.Invariant (@GroundedAt σ) fun _ _ _ => True where
  later hlater ho :=
    ⟨ho.prototype, fun b hb => Heap.contains_of_size_le hlater.size_le (ho.held b hb)⟩
  plain ho := by
    refine ⟨fun r' hr' => Heap.lt_of_contains ho.prototype hr', fun b hb => ?_⟩
    exact Heap.contains_of_size_le (Heap.Later.push _ _).size_le (ho.held b hb)
  close ho := ⟨ho.prototype, ho.held⟩
  store ho _ := ⟨ho.prototype, ho.held⟩
  insert ho _ _ := ⟨ho.prototype, ho.held⟩
  erase _ ho := ⟨ho.prototype, ho.held⟩
  halves_none _ := trivial
  halves_later _ _ := trivial

end ObjectRecord

theorem Heap.grounded_of_all {h : Heap (Behaviour σ)} (hall : h.All ObjectRecord.GroundedAt) :
    h.Grounded := fun r r' hr => by
  obtain ⟨o, ho, hproto⟩ := Option.bind_eq_some_iff.mp hr
  exact (hall r o ho).prototype r' hproto

/--
A prototype is given only to a new object, and exists before it. Own properties may be edited
directly.
-/
def Rule.grounded : Rule σ
  | _, .perform (.setPrototype ..), _ => false
  | _, .perform (.newObject proto), w => w.heap.contains proto
  | _, .perform (.newArray _ proto), w => w.heap.contains proto
  | _, .function proto, w => w.heap.contains proto
  | _, .build shape, w => w.heap.contains shape.prototype
  | _, _, _ => true

namespace Rule

variable {w : World (Behaviour σ) σ} {proto : Value}

/-- A provided function that some object runs may give the object that it holds as a prototype. -/
theorem groundedAt_of_held {i : Intrinsic} (hi : i.held? = some proto)
    (hstored : w.heap.Stores (.provided i)) (hall : w.heap.All ObjectRecord.GroundedAt) :
    ObjectRecord.GroundedAt (w.heap.push { kind := .object, prototype := some proto })
      w.heap.size { kind := .object, prototype := some proto } := by
  obtain ⟨r, o, ho, hcall⟩ := hstored
  have hheld := (hall r o ho).held _ hcall
  rw [Behaviour.held?, hi] at hheld
  exact ObjectRecord.groundedAt_invariant.plain
    (ObjectRecord.plainIn_of_empty rfl hheld fun _ hb => nomatch hb)

theorem grounded_keeps :
    (grounded : Rule σ).Keeps (Heap.Keeps ObjectRecord.GroundedAt) := by
  have hQ := @ObjectRecord.groundedAt_invariant σ
  refine ⟨?_, ?_, ?_, ?_⟩
  · intro caller hc op w h
    have hedit : ∀ (r : Ref) (f : ObjectRecord (Behaviour σ) → ObjectRecord (Behaviour σ)),
        (∀ o, (f o).call = o.call) → (∀ o, (f o).prototype = o.prototype) →
          w.heap.Keeps ObjectRecord.GroundedAt (w.heap.update r f) := fun r f hcall hproto =>
      hQ.keeps_update hcall fun o _ ho => ⟨by rw [hproto]; exact ho.prototype, by
        rw [hcall]; exact ho.held⟩
    cases op with
    | store v key p =>
      cases v with
      | object r => exact hedit r _ (fun _ => rfl) fun _ => rfl
      | _ => exact hQ.passage.refl w.heap
    | unstore v key =>
      cases v with
      | object r => exact hedit r _ (fun _ => rfl) fun _ => rfl
      | _ => exact hQ.passage.refl w.heap
    | setPrototype => cases h
    | newObject proto =>
      exact hQ.alloc_plain (ObjectRecord.plainIn_of_empty rfl h fun _ hb => nomatch hb)
    | newArray values proto => exact hQ.alloc_plain (ObjectRecord.plainIn_array values h)
    | put => exact hQ.course.run hc (hQ.newRealm w) fun _ _ _ _ => trivial
    | defineProperty => exact hQ.course.run hc (hQ.newRealm w) fun _ _ _ _ _ _ => trivial
    | _ => exact hQ.course.run hc (hQ.newRealm w) trivial
  · intro caller hc i this args w hi _
    refine hQ.course.provided hc ?_
    cases i with
    | toObject proto => exact groundedAt_of_held rfl hi
    | getOwnPropertyDescriptor proto =>
      intro d w' hw'
      have hlater := ((hQ.passage.getOwnPropertyDescriptor hc _ _ w).ok hw').1
      exact groundedAt_of_held rfl (hlater.stores hi)
    | defineProperty => exact fun _ _ _ _ _ _ => trivial
    | _ => exact trivial
  · intro caller proto w body h
    refine hQ.alloc_plain (ObjectRecord.plainIn_of_empty rfl h ?_)
    rintro _ ⟨⟩
    rfl
  · intro caller shape w body h
    refine hQ.keeps_push fun _ => ⟨fun r' hr' => Heap.lt_of_contains h hr', fun b hb => ?_⟩
    obtain ⟨_, -, rfl⟩ := Option.map_eq_some_iff.mp hb
    rfl

end Rule

open Eval in
/--
**Chains of prototypes end, and the nearest property counts.** User code starts from nothing, may
call what it likes, and gives as a prototype any value to a new object. Then no object is on its own
chain of prototypes. From each value the chain is a finite list, and under each key the property of
the first on it that has one is found, is asked whether it accepts an assignment, and is read: data
without running code, and a getter by one call with the object asked as its receiver.
-/
theorem World.ReachesUnder.chains_end {s : σ} {w : World (Behaviour σ) σ}
    (hw : ReachesUnder Rule.grounded ⟨#[], s⟩ w) :
    (∀ v, ¬Relation.TransGen (fun u u' => w.heap.prototype? u = some u') v v) ∧
    ∀ v, ∃ vs, w.heap.Chain v vs ∧ ∀ key, ∃ nearest,
      nearest = vs.findSome? (w.heap.own? · key) ∧
      w.heap.find? v key = nearest ∧
      w.heap.hasProperty v key = nearest.isSome ∧
      w.heap.canPut v key = w.heap.canPutOn v key nearest ∧
      ∀ caller : Caller (Behaviour σ) σ, v.isObject = true →
        (∀ value writable e c, nearest = some (.data value writable e c) →
          get caller v key w = .ok value w) ∧
        (∀ getter b set e c, nearest = some (.accessor (some getter) set e c) →
          (w.heap.record? getter).bind (·.call) = some b →
            get caller v key w = caller b v [] w) ∧
        (nearest = none ∨ (∃ set e c, nearest = some (.accessor none set e c)) →
          get caller v key w = .ok .undefined w) := by
  have hkeeps := hw.along ObjectRecord.groundedAt_invariant.passage Rule.grounded_keeps
  have hg := Heap.grounded_of_all (hkeeps.2 (Heap.all_empty _))
  refine ⟨hg.acyclic, fun v => ?_⟩
  obtain ⟨vs, hvs⟩ := hg.exists_chain v
  refine ⟨vs, hvs, fun key => ⟨_, rfl, hvs.find?_eq hg key, ?_, hvs.canPut_eq hg key, ?_⟩⟩
  · rw [Heap.hasProperty, hvs.find?_eq hg]
  · intro caller hv
    obtain ⟨r, rfl⟩ : ∃ r, v = .object r := by
      cases v with
      | object r => exact ⟨r, rfl⟩
      | _ => cases hv
    rw [get_object, hvs.find?_eq hg]
    refine ⟨?_, ?_, ?_⟩
    · intro value writable e c hdata
      rw [hdata]
      rfl
    · intro getter b set e c haccessor hcall
      rw [haccessor]
      exact call_of_callable hcall _ _
    · rintro (hnone | ⟨set, e, c, haccessor⟩)
      · rw [hnone]
        rfl
      · rw [haccessor]
        rfl

/-- User code that makes a realm, a getter, an object with it, and two that inherit it in turn. -/
def inheritGetter : Program Unit :=
  .perform .newRealm fun _ =>
  .function none (fun this _ => .done this) fun getter =>
  .build { kind := .object, properties := [("p", .accessor (some getter) none true true)],
           prototype := some (.object 0) } (fun this _ => .done this) fun holder =>
  .perform (.newObject (some holder)) fun _ =>
  .perform (.newArray [.null] (some (.object 19))) fun _ => .done .undefined

/-- The world that `inheritGetter` reaches from nothing. -/
def inheritedWorld : World (Behaviour Unit) Unit :=
  Eval.after (inheritGetter.runUnder Rule.grounded (behaviourUnder Rule.grounded 0)) ⟨#[], ()⟩

/-- An array reads a getter of its third prototype, and the getter is called on the array. -/
theorem World.ReachesUnder.chains_end_inherited :
    ReachesUnder Rule.grounded ⟨#[], ()⟩ inheritedWorld ∧
      inheritedWorld.heap.own? (.object 20) "p" = none ∧
      ∃ b, ∀ caller : Caller (Behaviour Unit) Unit,
        Eval.get caller (.object 20) "p" inheritedWorld =
          caller b (.object 20) [] inheritedWorld := by
  have hw : ReachesUnder Rule.grounded ⟨#[], ()⟩ inheritedWorld :=
    ⟨Rule.grounded, 0, inheritGetter, fun _ _ _ => id, rfl⟩
  refine ⟨hw, by decide +kernel, ?_⟩
  obtain ⟨vs, -, hvs⟩ := hw.chains_end.2 (.object 20)
  obtain ⟨nearest, -, hfind, -, -, hget⟩ := hvs "p"
  have hp : inheritedWorld.heap.find? (.object 20) "p" =
      some (.accessor (some (.object 17)) none true true) := by decide +kernel
  have hcallable : inheritedWorld.heap.isCallable (.object 17) = true := by decide +kernel
  obtain ⟨b, hb⟩ := Option.isSome_iff_exists.mp hcallable
  exact ⟨b, fun caller =>
    (hget caller rfl).2.1 _ b none true true (hfind.symm.trans hp) hb⟩

end Es5
