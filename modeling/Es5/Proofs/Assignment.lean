import Es5.Proofs.Callable
import Es5.Proofs.Lookup
import Es5.Proofs.Redefinition
import Es5.Proofs.Resize
import Mathlib.Data.Fintype.EquivFin

/-!
# What an assignment leaves behind

An assignment that is accepted stores one property, which is then read back: it keeps the attributes
of an own one, or is new and open to every change. In an array it may raise the length with it. An
assignment that is not accepted changes nothing, and it does not throw. Where an accessor is found
instead, the assignment is one call of its setter.

* `Heap.Acyclic`: no object is on its own chain of prototypes.
* `ObjectRecord.PastLength`: a key is an index from the length of an array on.
* `ObjectRecord.Assigned`: a record and what an accepted assignment makes of it.
* `Heap.Chain.find?_eq_findSome?`: lookups along a chain that ends.
* `Eval.put_data`: an assignment where no accessor is found.
* **`Eval.put_then_get`**: assigning and reading back.
-/

namespace Es5

variable {κ σ : Type}

/-- No object is on its own chain of prototypes. -/
def Heap.Acyclic (h : Heap κ) : Prop :=
  ∀ v, ¬Relation.TransGen (fun u u' => h.prototype? u = some u') v v

/-- The property that an assignment stores over the own property under the key. -/
def Property.assigned (own : Option Property) (value : Value) : Property :=
  match own with
  | some (.data _ writable e c) => .data value writable e c
  | _ => .plain value

namespace ObjectRecord

/-- A key is an index from the length on of an array whose length is writable or not. -/
def PastLength (o : ObjectRecord κ) (key : String) (i : Nat) (writable : Bool) : Prop :=
  arrayIndex? key = some i ∧ ∃ n, o.LengthIs n writable ∧ n ≤ i

/--
What an accepted assignment makes of a record. The property is stored in its place or appended,
and if it is an element past the length then the length is raised just above it.
-/
structure Assigned (o : ObjectRecord κ) (key : String) (value : Value) (o' : ObjectRecord κ) :
    Prop where
  stored : o'.own? key = some (.assigned (o.own? key) value)
  keys : o'.properties.keys =
    if (o.own? key).isSome then o.properties.keys else o.properties.keys ++ [key]
  raised : ∀ i, o.PastLength key i true → o'.own? "length" = some (.length (i + 1) true)
  others : ∀ key', key' ≠ key → (key' = "length" → ∀ i, ¬o.PastLength key i true) →
    o'.own? key' = o.own? key'
  rest : { o' with properties := o.properties } = o

end ObjectRecord

/-! ## Chains that end -/

namespace Heap

variable {h : Heap κ} {v : Value} {vs : List Value} {key : String} {p : Property}

theorem exists_of_prototype? {u : Value} (hv : h.prototype? v = some u) :
    ∃ r : Fin h.size, v = .object r := by
  obtain ⟨o, ho, -⟩ := Option.bind_eq_some_iff.mp hv
  cases v with
  | object r => exact ⟨⟨r, (Array.getElem?_eq_some_iff.mp ho).1⟩, rfl⟩
  | _ => cases ho

/-- There are finitely many objects, so without cycles no way up the prototypes goes on forever. -/
theorem Acyclic.wellFounded (hh : h.Acyclic) : WellFounded fun r' r : Fin h.size =>
    Relation.TransGen (fun u u' => h.prototype? u = some u') (.object r) (.object r') := by
  have htrans : IsTrans (Fin h.size) fun r' r =>
      Relation.TransGen (fun u u' => h.prototype? u = some u') (.object r) (.object r') :=
    ⟨fun _ _ _ hab hbc => hbc.trans hab⟩
  have hirrefl : Std.Irrefl fun r' r : Fin h.size =>
      Relation.TransGen (fun u u' => h.prototype? u = some u') (.object r) (.object r') :=
    ⟨fun r => hh (.object r)⟩
  exact Finite.wellFounded_of_trans_of_irrefl _

/-- In a heap without cycles every chain of prototypes ends. -/
theorem Acyclic.exists_chain (hh : h.Acyclic) (v : Value) : ∃ vs, h.Chain v vs := by
  have hobject : ∀ r : Fin h.size, ∃ vs, h.Chain (.object r) vs := by
    intro r
    induction r using hh.wellFounded.induction with
    | _ r ih =>
      cases hproto : h.prototype? (.object r) with
      | none => exact ⟨_, .last hproto⟩
      | some proto =>
        cases hnext : h.prototype? proto with
        | none => exact ⟨_, .up hproto (.last hnext)⟩
        | some _ =>
          obtain ⟨r', rfl⟩ := exists_of_prototype? hnext
          obtain ⟨vs, hvs⟩ := ih r' (.single hproto)
          exact ⟨_, .up hproto hvs⟩
  cases hproto : h.prototype? v with
  | none => exact ⟨_, .last hproto⟩
  | some proto =>
    obtain ⟨r, rfl⟩ := exists_of_prototype? hproto
    exact hobject r

/-- Along a chain that ends, the first object that has the key is where a lookup arrives. -/
theorem Chain.findSome?_eq_some_iff (hvs : h.Chain v vs) :
    vs.findSome? (h.own? · key) = some p ↔ ∃ us, h.Climbs key v us p := by
  induction hvs with
  | @last v hv =>
    rw [List.findSome?_singleton]
    constructor
    · intro hp
      exact ⟨_, .here hp⟩
    · rintro ⟨us, hus⟩
      cases hus with
      | here hp => exact hp
      | up _ hproto _ => cases hv.symm.trans hproto
  | @up v proto vs hv _ ih =>
    rw [List.findSome?_cons]
    cases hown : h.own? v key with
    | some q =>
      constructor
      · intro hq
        exact ⟨_, .here (hown.trans hq)⟩
      · rintro ⟨us, hus⟩
        cases hus with
        | here hp => exact hown.symm.trans hp
        | up hnone _ _ => cases hown.symm.trans hnone
    | none =>
      refine ih.trans ⟨?_, ?_⟩
      · rintro ⟨us, hus⟩
        exact ⟨_, .up hown hv hus⟩
      · rintro ⟨us, hus⟩
        cases hus with
        | here hp => cases hown.symm.trans hp
        | up _ hproto hus =>
          cases hv.symm.trans hproto
          exact ⟨_, hus⟩

/-- The nearest property is that of the first object that has one, on any chain that ends. -/
theorem Chain.find?_eq_findSome? (hvs : h.Chain v vs) (key : String) :
    h.find? v key = vs.findSome? (h.own? · key) := by
  refine Option.ext fun p => ?_
  rw [find?, findWithin_eq_some_iff, hvs.findSome?_eq_some_iff]
  constructor
  · rintro ⟨us, hus, -⟩
    exact ⟨us, hus⟩
  · rintro ⟨us, hus⟩
    exact ⟨us, hus, hus.length_le_size⟩

/-- A key that is not an own one is looked up from the prototype on. -/
theorem Chain.find?_of_own?_none (hvs : h.Chain v vs) (hown : h.own? v key = none) :
    h.find? v key = (h.prototype? v).bind (h.find? · key) := by
  rw [hvs.find?_eq_findSome?]
  cases hvs with
  | last hv => rw [hv, List.findSome?_singleton, hown, Option.bind_none]
  | up hv hproto =>
    rw [hv, List.findSome?_cons, hown, Option.bind_some, hproto.find?_eq_findSome?]

/-- Where no accessor is found, what is assigned to is writable, or new to an open object. -/
theorem Chain.own?_of_canPut (hvs : h.Chain v vs)
    (hdata : ∀ p, h.find? v key = some p → p.isData = true) (hcan : h.canPut v key = true) :
    (∃ x e c, h.own? v key = some (.data x true e c)) ∨
      h.own? v key = none ∧ h.isExtensible v = true := by
  cases hown : h.own? v key with
  | some p =>
    cases p with
    | data x w e c =>
      simp only [canPut, hown, Property.acceptsWrite] at hcan
      exact Or.inl ⟨x, e, c, by rw [hcan]⟩
    | accessor g s e c => cases hdata _ (find?_of_own? hown)
  | none =>
    refine Or.inr ⟨rfl, ?_⟩
    have hinherited := hvs.find?_of_own?_none hown
    simp only [canPut, hown, ← hinherited] at hcan
    cases hp : h.find? v key with
    | none => simpa [hp] using hcan
    | some p =>
      cases p with
      | data x w e c =>
        simp only [hp, Bool.and_eq_true] at hcan
        exact hcan.1
      | accessor g s e c => cases hdata _ hp

end Heap

/-! ## Records -/

namespace ObjectRecord

variable {o : ObjectRecord κ} {key : String} {value : Value} {p : Property} {i n : Nat} {w : Bool}

theorem isSome_own?_iff : (o.own? key).isSome = true ↔ key ∈ o.properties.keys := by
  rw [own?, Properties.mem_keys_iff, Option.isSome_iff_exists]

theorem keys_insert (o : ObjectRecord κ) (key : String) (p : Property) :
    (o.insert key p).properties.keys =
      if (o.own? key).isSome then o.properties.keys else o.properties.keys ++ [key] := by
  simp only [properties_insert, Properties.keys_insert, isSome_own?_iff]

theorem LengthIs.pastLength_iff (hl : o.LengthIs n w) (hi : arrayIndex? key = some i)
    (hle : n ≤ i) {j : Nat} {w' : Bool} : o.PastLength key j w' ↔ j = i ∧ w' = w := by
  constructor
  · rintro ⟨hj, m, hm, -⟩
    cases hi.symm.trans hj
    exact ⟨rfl, (hl.eq hm).2.symm⟩
  · rintro ⟨rfl, rfl⟩
    exact ⟨hi, n, hl, hle⟩

/-- Storing the property is all, unless it is an element past the length. -/
theorem assigned_insert (hpast : ∀ i, ¬o.PastLength key i true) :
    o.Assigned key value (o.insert key (.assigned (o.own? key) value)) where
  stored := own?_insert_self
  keys := keys_insert o key _
  raised i hi := absurd hi (hpast i)
  others _ hne _ := own?_insert_of_ne hne
  rest := rfl

/-- An element past the length raises it. -/
theorem assigned_raised (hl : o.LengthIs n true) (hi : arrayIndex? key = some i) (hle : n ≤ i) :
    o.Assigned key value
      ((o.insert key (.assigned (o.own? key) value)).insert "length" (.length (i + 1) true)) := by
  have hkey : key ≠ "length" := ne_length_of_arrayIndex? hi
  have hlength : ((o.insert key (.assigned (o.own? key) value)).own? "length").isSome = true := by
    rw [own?_insert_of_ne (Ne.symm hkey), hl.own]
    rfl
  constructor
  · rw [own?_insert_of_ne hkey, own?_insert_self]
  · rw [keys_insert, if_pos hlength, keys_insert]
  · intro j hj
    rw [((hl.pastLength_iff hi hle).mp hj).1, own?_insert_self]
  · intro key' hne hpast
    have hne' : key' ≠ "length" := fun he => hpast he i ((hl.pastLength_iff hi hle).mpr ⟨rfl, rfl⟩)
    rw [own?_insert_of_ne hne', own?_insert_of_ne hne]
  · rfl

end ObjectRecord

/-! ## Definitions made by assignments -/

/-- A value alone keeps the attributes of a writable property. -/
theorem Descriptor.applyTo?_value (extensible : Bool) (value x : Value) (e c : Bool) :
    ({ value := some value } : Descriptor).applyTo? extensible (some (.data x true e c)) =
      some (.data value true e c) := by
  have hsettled : (Property.data x true e c).Settled := trivial
  have hperm : permittedOn { value := some value } (.data x true e c) = true := by
    simp [permittedOn, fieldWithin, switches, isGeneric, isData, Property.isData, keepsFixed]
  rw [applyTo?_settled hsettled, if_pos hperm]
  simp [switches, isData, Property.isData, update]

namespace Heap

variable {h : Heap κ} {r : Ref} {o : ObjectRecord κ} {key : String} {value : Value}
  {d : Descriptor} {i n : Nat}

/-- An assignment that is accepted makes a definition of the property assigned. -/
theorem Chain.assigned?_of_canPut {vs : List Value} (hvs : h.Chain (.object r) vs)
    (ho : h[r]? = some o) (value : Value)
    (hdata : ∀ p, h.find? (.object r) key = some p → p.isData = true)
    (hcan : h.canPut (.object r) key = true) :
    ∃ d, h.assigned? (.object r) key value = some d ∧
      d.applyTo? o.extensible (o.own? key) = some (.assigned (o.own? key) value) := by
  rw [← own?_eq ho]
  rcases hvs.own?_of_canPut hdata hcan with ⟨x, e, c, hown⟩ | ⟨hown, hextensible⟩
  · rw [hown]
    exact ⟨_, by rw [assigned?, hown], Descriptor.applyTo?_value ..⟩
  · have hopen : o.extensible = true := by
      simpa [isExtensible, record?, ho] using hextensible
    rw [hown, hopen]
    cases hp : h.find? (.object r) key with
    | none => exact ⟨_, by rw [assigned?, hown, hp], rfl⟩
    | some p =>
      cases p with
      | data => exact ⟨_, by rw [assigned?, hown, hp], rfl⟩
      | accessor => cases hdata _ hp

/-- The definition that an assignment makes is accepted, and stores the property assigned. -/
theorem define_assigned (ho : h[r]? = some o)
    (hd : d.applyTo? o.extensible (o.own? key) = some (.assigned (o.own? key) value)) :
    h.define r key d = (true, h.update r fun _ => o.insert key (.assigned (o.own? key) value)) := by
  rcases define_cases ho key d with ⟨hnone, -⟩ | ⟨p, hp, he⟩
  · cases hnone.symm.trans hd
  · cases hp.symm.trans hd
    rw [he, update_eq ho]

theorem defineElement_readOnly (ho : h[r]? = some o) (hl : o.LengthIs n false) (hle : n ≤ i) :
    h.defineElement r i key d = (false, h) := by
  simp [defineElement, arrayLength_of_lengthIs ho hl, hle]

/-- An element past a writable length is stored, and the length raised. -/
theorem defineElement_raised (ho : h[r]? = some o) (hl : o.LengthIs n true)
    (hi : arrayIndex? key = some i) (hle : n ≤ i)
    (hd : d.applyTo? o.extensible (o.own? key) = some (.assigned (o.own? key) value)) :
    h.defineElement r i key d = (true, h.update r fun _ =>
      (o.insert key (.assigned (o.own? key) value)).insert "length" (.length (i + 1) true)) := by
  have hi' : i + 1 ≤ maxLength := (arrayIndex?_eq_some_iff.mp hi).1
  have ho' : (h.update r fun _ => o.insert key (.assigned (o.own? key) value))[r]? =
      some (o.insert key (.assigned (o.own? key) value)) := getElem?_update_self ho _
  have hl' : (o.insert key (.assigned (o.own? key) value)).LengthIs n true :=
    hl.insert_of_ne (ne_length_of_arrayIndex? hi)
  have hresize : Descriptor.MayResize { value := some (lengthValue (i + 1)) } true :=
    ⟨by simp, by simp, rfl⟩
  have hraise := define_length_of_mayResize ho' hl' hi' rfl hresize
  simp only [defineElement, arrayLength_of_lengthIs ho hl, define_assigned ho hd, hle]
  simp [hraise, update_update]

end Heap

namespace Eval

variable {caller : Caller κ σ} {w : World κ σ} {r : Ref} {o : ObjectRecord κ} {vs : List Value}
  {key : String} {value : Value} {d : Descriptor}

/-- Where the key is no index past the length, the rules of arrays store the property only. -/
theorem defineBy_within (caller : Caller κ σ) (ho : w.heap[r]? = some o)
    (hcovered : o.kind = .array → o.IsCovered) (hkey : ¬(o.kind = .array ∧ key = "length"))
    (hd : d.applyTo? o.extensible (o.own? key) = some (.assigned (o.own? key) value))
    (hpast : ∀ i w', ¬o.PastLength key i w') :
    defineBy caller r key d w = .ok true
      { w with heap := w.heap.update r fun _ => o.insert key (.assigned (o.own? key) value) } := by
  have hkind : w.heap.kind? (.object r) = some o.kind := by simp [Heap.kind?, Heap.record?, ho]
  have hdefine := Heap.define_assigned ho hd
  by_cases harray : o.kind = .array
  · obtain ⟨n, writable, hl, -⟩ := hcovered harray
    have hkey' : key ≠ "length" := fun he => hkey ⟨harray, he⟩
    simp only [defineBy, hkind, harray, if_true, defineOnArray, hkey', if_false]
    cases hi : arrayIndex? key with
    | none => simp only [change, hdefine]
    | some i =>
      have hlt : i < (w.heap.arrayLength r).1 := by
        rw [Heap.arrayLength_of_lengthIs ho hl]
        by_contra hle
        exact hpast i writable ⟨hi, n, hl, Nat.le_of_not_lt hle⟩
      simp only [change, Heap.defineElement_of_lt hlt, hdefine]
  · simp [defineBy, hkind, harray, change, hdefine]

theorem defineBy_element (caller : Caller κ σ) (ho : w.heap[r]? = some o) {i n : Nat} {w' : Bool}
    (hi : arrayIndex? key = some i) (hl : o.LengthIs n w') :
    defineBy caller r key d w = change (·.defineElement r i key d) w := by
  have hkind : w.heap.kind? (.object r) = some .array := by
    simp [Heap.kind?, Heap.record?, ho, hl.kind]
  simp only [defineBy, hkind, if_true, defineOnArray, ne_length_of_arrayIndex? hi, if_false, hi]

/-- What is assigned is defined, unless it is an element past a length that is read-only. -/
theorem defineBy_assigned (caller : Caller κ σ) (ho : w.heap[r]? = some o)
    (hcovered : o.kind = .array → o.IsCovered) (hkey : ¬(o.kind = .array ∧ key = "length"))
    (hd : d.applyTo? o.extensible (o.own? key) = some (.assigned (o.own? key) value)) :
    ((∀ i, ¬o.PastLength key i false) ∧ ∃ o', o.Assigned key value o' ∧
      defineBy caller r key d w = .ok true { w with heap := w.heap.update r fun _ => o' }) ∨
    ((∃ i, o.PastLength key i false) ∧ defineBy caller r key d w = .ok false w) := by
  by_cases hpast : ∀ i w', ¬o.PastLength key i w'
  · exact Or.inl ⟨fun i => hpast i _, _, ObjectRecord.assigned_insert fun i => hpast i _,
      defineBy_within caller ho hcovered hkey hd hpast⟩
  · push Not at hpast
    obtain ⟨i, w', hi, n, hl, hle⟩ := hpast
    rw [defineBy_element caller ho hi hl]
    cases w' with
    | true =>
      refine Or.inl ⟨fun j hj => ?_, _, ObjectRecord.assigned_raised hl hi hle, ?_⟩
      · cases ((hl.pastLength_iff hi hle).mp hj).2
      · simp only [change, Heap.defineElement_raised ho hl hi hle hd]
    | false =>
      refine Or.inr ⟨⟨i, hi, n, hl, hle⟩, ?_⟩
      simp only [change, Heap.defineElement_readOnly ho hl hle]

/-- An assignment where no accessor is found. -/
theorem put_data (caller : Caller κ σ) (value : Value) (hvs : w.heap.Chain (.object r) vs)
    (hdata : ∀ p, w.heap.find? (.object r) key = some p → p.isData = true)
    (ho : w.heap[r]? = some o) (hcovered : o.kind = .array → o.IsCovered)
    (hkey : ¬(o.kind = .array ∧ key = "length")) :
    (w.heap.canPut (.object r) key = true ∧ (∀ i, ¬o.PastLength key i false) →
      ∃ o', o.Assigned key value o' ∧ put caller (.object r) key value w =
        .ok () { w with heap := w.heap.update r fun _ => o' }) ∧
    (¬(w.heap.canPut (.object r) key = true ∧ ∀ i, ¬o.PastLength key i false) →
      put caller (.object r) key value w = .ok () w) := by
  rcases putWith_cases caller r key value w with ⟨hcan, hput⟩ | ⟨hcan, hcases⟩
  · refine ⟨fun h => ?_, fun _ => hput false⟩
    rw [hcan] at h
    cases h.1
  · obtain ⟨d, hassigned, hd⟩ := hvs.assigned?_of_canPut ho value hdata hcan
    obtain ⟨d', hd', hput⟩ | ⟨hnone, -⟩ := hcases
    · cases hassigned.symm.trans hd'
      have hrun : put caller (.object r) key value w =
          (defineBy caller r key d >>= fun _ => pure ()) w := by
        rw [put, hput]
        simp only [bind, EStateM.bind, defineOwn_lenient]
      rcases defineBy_assigned caller ho hcovered hkey hd with
        ⟨hpast, o', ho', hdefine⟩ | ⟨⟨i, hpast⟩, hdefine⟩
      · refine ⟨fun _ => ⟨o', ho', ?_⟩, fun h => absurd ⟨hcan, hpast⟩ h⟩
        rw [hrun, bind_of_ok hdefine]
        rfl
      · refine ⟨fun h => absurd hpast (h.2 i), fun _ => ?_⟩
        rw [hrun, bind_of_ok hdefine]
        rfl
    · cases hassigned.symm.trans hnone

/--
**Assigning and reading back.** No object of the heap is on its own chain of prototypes, and the
length of an array is above its indices. Where the first property under the key is no accessor, and
the key is not the length of an array, an assignment that is accepted stores one property, which is
then read back; it changes nothing else but the length of an array that it raises. One that is not
accepted, or would be past a length that is read-only, changes nothing and reports nothing. Where
the first property is an accessor, the assignment is one call of its setter with the object assigned
to as the receiver, and without a setter it changes nothing.
-/
theorem put_then_get (caller : Caller κ σ) (hacyclic : w.heap.Acyclic) (ho : w.heap[r]? = some o)
    (hcovered : o.kind = .array → o.IsCovered) (key : String) (value : Value) :
    ∃ vs nearest, w.heap.Chain (.object r) vs ∧
      nearest = vs.findSome? (w.heap.own? · key) ∧
      ((∀ p, nearest = some p → p.isData = true) → ¬(o.kind = .array ∧ key = "length") →
        (w.heap.canPut (.object r) key = true ∧ (∀ i, ¬o.PastLength key i false) →
          ∃ o', o.Assigned key value o' ∧
            let w' := { w with heap := w.heap.update r fun _ => o' }
            put caller (.object r) key value w = .ok () w' ∧
              get caller (.object r) key w' = .ok value w') ∧
        (¬(w.heap.canPut (.object r) key = true ∧ ∀ i, ¬o.PastLength key i false) →
          put caller (.object r) key value w = .ok () w)) ∧
      (∀ g setter e c b, nearest = some (.accessor g (some setter) e c) →
        (w.heap.record? setter).bind (·.call) = some b →
          put caller (.object r) key value w =
            (caller b (.object r) [value] >>= fun _ => pure ()) w) ∧
      (∀ g e c, nearest = some (.accessor g none e c) →
        put caller (.object r) key value w = .ok () w) := by
  obtain ⟨vs, hvs⟩ := hacyclic.exists_chain (.object r)
  have hfind := hvs.find?_eq_findSome? key
  refine ⟨vs, _, hvs, hfind, fun hdata hkey => ?_, fun g setter e c b hp hb => ?_,
    fun g e c hp => ?_⟩
  · obtain ⟨haccepted, hrefused⟩ := put_data caller value hvs hdata ho hcovered hkey
    refine ⟨fun h => ?_, hrefused⟩
    obtain ⟨o', ho', hput⟩ := haccepted h
    refine ⟨o', ho', hput, ?_⟩
    have hstored : (w.heap.update r fun _ => o').own? (.object r) key =
        some (.assigned (o.own? key) value) := by
      rw [Heap.own?_eq (Heap.getElem?_update_self ho _), ho'.stored]
    rw [get_object, Heap.find?_of_own? hstored]
    rcases o.own? key with _ | ⟨_ | _⟩ <;> rfl
  · rw [put, putWith_of_setter caller hp]
    simp only [bind, EStateM.bind, call_of_callable hb]
  · have hcan : w.heap.canPut (.object r) key = false := Heap.canPut_of_accessor hp
    rcases putWith_cases caller r key value w with ⟨-, hput⟩ | ⟨hcan', -⟩
    · exact hput false
    · cases hcan.symm.trans hcan'

/-- The behaviour of a setter that does nothing. -/
def idleSetter : Behaviour Unit := .user fun _ _ => .done .undefined

/-- An array without elements. -/
def emptyArray : ObjectRecord (Behaviour Unit) :=
  { kind := .array, properties := [("length", .length 0 true)], prototype := some (.object 1) }

/-- A setter, an object that has it, and an object that is not extensible and an array below it. -/
def setterWorld : World (Behaviour Unit) Unit :=
  { heap := #[{ kind := .function, call := some idleSetter },
      { kind := .object, properties := [("p", .accessor none (some (.object 0)) true true)] },
      { kind := .object, prototype := some (.object 1), extensible := false }, emptyArray]
    host := () }

theorem setterWorld_grounded : setterWorld.heap.Grounded := by
  intro r r' hr
  match r with
  | 0 => cases hr
  | 1 => cases hr
  | 2 =>
    cases hr
    decide
  | 3 =>
    cases hr
    decide
  | n + 4 => simp [setterWorld, Heap.prototype?, Heap.record?] at hr

/-- An element past the length of an array, and a setter that an object does not own. -/
theorem put_then_get_inherited :
    let w := setterWorld
    let caller : Caller (Behaviour Unit) Unit := runBehaviour 1
    (∃ o' : ObjectRecord (Behaviour Unit), o'.own? "length" = some (.length 2 true) ∧
      o'.properties.keys = ["length", "1"] ∧
      let w' := { w with heap := w.heap.update 3 fun _ => o' }
      put caller (.object 3) "1" .null w = .ok () w' ∧
        get caller (.object 3) "1" w' = .ok .null w') ∧
    put caller (.object 2) "p" .null w =
      (caller idleSetter (.object 2) [.null] >>= fun _ => pure ()) w := by
  intro w caller
  have hl : emptyArray.LengthIs 0 true := ⟨rfl, rfl, by decide +kernel⟩
  have hbelow : emptyArray.IndicesBelow 0 := by
    rw [ObjectRecord.indicesBelow_iff]
    decide +kernel
  have hi : arrayIndex? "1" = some 1 := by decide +kernel
  constructor
  · obtain ⟨vs, nearest, hvs, hnearest, hdata, -⟩ := put_then_get (r := 3) (o := emptyArray)
      caller setterWorld_grounded.acyclic rfl (fun _ => ⟨0, true, hl, hbelow⟩) "1" .null
    have hnone : nearest = none := by
      rw [hnearest, ← hvs.find?_eq_findSome?]
      decide +kernel
    have hcan : w.heap.canPut (.object 3) "1" = true := by decide +kernel
    have hpast : ∀ i, ¬emptyArray.PastLength "1" i false := fun i hp =>
      nomatch ((hl.pastLength_iff hi (Nat.zero_le 1)).mp hp).2
    obtain ⟨o', ho', hput, hget⟩ := (hdata (by simp [hnone]) (by simp)).1 ⟨hcan, hpast⟩
    refine ⟨o', ?_, ?_, hput, hget⟩
    · exact ho'.raised 1 ((hl.pastLength_iff hi (Nat.zero_le 1)).mpr ⟨rfl, rfl⟩)
    · rw [ho'.keys]
      decide +kernel
  · obtain ⟨vs, nearest, hvs, hnearest, -, hsetter, -⟩ := put_then_get (w := w) (r := 2)
      caller setterWorld_grounded.acyclic rfl (fun h => nomatch h) "p" .null
    refine hsetter none (.object 0) true true idleSetter ?_ rfl
    rw [hnearest, ← hvs.find?_eq_findSome?]
    decide +kernel

end Eval

end Es5
