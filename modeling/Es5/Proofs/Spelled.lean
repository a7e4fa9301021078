import Es5.Proofs.Strict

/-!
# Descriptors spelled by objects

A descriptor is written as a new object by assignments, one for each field, and read back field by
field. An assignment goes by what the new object inherits: it may call a setter, or be kept out by a
read-only property. Neither writing nor reading runs any code if no prototype of the new object has
a field of that name, and then the descriptor that is read is the one that was written.

* `Heap.Lacks`: neither an object nor any of its prototypes has a key.
* `Heap.Yields`: what a new object inherits under a key.
* `ObjectRecord.describing`: the record of an object that spells a descriptor.
* **`Eval.writeDescriptor_filter`**, **`Eval.writeDescriptor_eq`**: what is written.
* **`Eval.readDescriptor_eq`**: what is read back.
-/

namespace Es5

variable {κ σ : Type}

/-! ## Properties that stand for fields -/

/-- The properties that stand for fields. -/
def Properties.ofFields (fields : List (String × Value)) : Properties :=
  fields.map fun field => (field.1, .plain field.2)

theorem Properties.insert_of_get?_none {ps : Properties} {key : String} {p : Property}
    (h : ps.get? key = none) : ps.insert key p = ps ++ [(key, p)] := by
  induction ps with
  | nil => rfl
  | cons x rest ih =>
    obtain ⟨k, q⟩ := x
    rw [get?_cons] at h
    by_cases hk : k = key
    · rw [if_pos hk] at h
      cases h
    · rw [if_neg hk] at h
      rw [insert, if_neg hk, ih h, List.cons_append]

theorem ObjectRecord.insert_new {o : ObjectRecord κ} {key : String} (h : o.own? key = none)
    (p : Property) : o.insert key p = { o with properties := o.properties ++ [(key, p)] } := by
  rw [insert, Properties.insert_of_get?_none h]

theorem Properties.get?_ofFields_append {fields rest : List (String × Value)}
    {field : String × Value} (hnodup : ((fields ++ field :: rest).map Prod.fst).Nodup) :
    (ofFields fields).get? field.1 = none := by
  rw [Properties.get?_eq_none_iff]
  intro hmem
  obtain ⟨x, hx, hkey⟩ := List.mem_map.mp hmem
  obtain ⟨y, hy, rfl⟩ := List.mem_map.mp hx
  rw [List.map_append, List.nodup_append] at hnodup
  exact hnodup.2.2 _ (List.mem_map_of_mem hy) _ (by simp) hkey

namespace Descriptor

/-- The fields that are present, under their names, have no name twice. -/
theorem nodup_fields (d : Descriptor) : (d.fields.map Prod.fst).Nodup := by
  have hsublist : ∀ named : List (String × Option Value),
      ((named.filterMap fun x => x.2.map (x.1, ·)).map Prod.fst).Sublist
        (named.map Prod.fst) := by
    intro named
    induction named with
    | nil => exact List.Sublist.slnil
    | cons x rest ih =>
      obtain ⟨name, _ | field⟩ := x
      · exact ih.cons name
      · exact ih.cons_cons name
  exact (by decide : fieldNames.Nodup).sublist (hsublist d.named)

/-- The property that stands for a field. -/
theorem get?_ofFields (d : Descriptor) (key : String) :
    (Properties.ofFields d.fields).get? key = (d.named.lookup key).join.map .plain := by
  have hnamed : ∀ named : List (String × Option Value), (named.map Prod.fst).Nodup →
      (Properties.ofFields (named.filterMap fun x => x.2.map (x.1, ·))).get? key =
        (named.lookup key).join.map .plain := by
    intro named hnodup
    induction named with
    | nil => rfl
    | cons x rest ih =>
      obtain ⟨name, field⟩ := x
      obtain ⟨hname, hrest⟩ := List.nodup_cons.mp hnodup
      rw [List.lookup_cons]
      by_cases hkey : key = name
      · subst hkey
        have hnone : rest.lookup key = none :=
          List.lookup_eq_none_iff.mpr fun x hx => by
            simpa using fun he : key = x.1 => hname (List.mem_map.mpr ⟨x, hx, he.symm⟩)
        cases field with
        | none => simpa [hnone] using ih hrest
        | some field => simp [Properties.ofFields, Properties.get?_cons]
      · have hbeq : (key == name) = false := by simpa using hkey
        cases field with
        | none => simpa [hbeq] using ih hrest
        | some field =>
          simpa [hbeq, Properties.ofFields, Properties.get?_cons, Ne.symm hkey] using ih hrest
  exact hnamed d.named (by decide : fieldNames.Nodup)

end Descriptor

/-- The setter, if there is one. -/
def Property.setter? : Property → Option Value
  | data .. => none
  | accessor _ set _ _ => set

/-- Whether a field is stored by assignment on a new object, given what is inherited under a key. -/
def takesField (nearest : String → Option Property) (field : String × Value) : Bool :=
  (nearest field.1).all (·.writable)

theorem takesField_iff {nearest : String → Option Property} {field : String × Value} :
    takesField nearest field = true ↔ ∀ p, nearest field.1 = some p → p.writable = true := by
  rw [takesField]
  cases nearest field.1 <;> simp

theorem setter?_of_takesField {nearest : String → Option Property} {field : String × Value}
    (h : takesField nearest field = true) : (nearest field.1).bind (·.setter?) = none := by
  cases hp : nearest field.1 with
  | none => rfl
  | some p =>
    have hwritable := takesField_iff.mp h p hp
    cases p with
    | data => rfl
    | accessor => cases hwritable

/-! ## Chains of prototypes -/

namespace Heap

/-- Neither a value nor any of its prototypes has a key. -/
def Lacks (h : Heap κ) (v : Value) (key : String) : Prop :=
  ∀ fuel, h.findWithin key fuel v = none

variable {h : Heap κ} {v proto : Value} {key : String} {o : ObjectRecord κ}

theorem Lacks.own? (hv : h.Lacks v key) : h.own? v key = none := by
  have hone := hv 1
  rw [findWithin] at hone
  cases hown : h.own? v key with
  | none => rfl
  | some p =>
    rw [hown] at hone
    cases hone

theorem Lacks.prototype (hv : h.Lacks v key) (hproto : h.prototype? v = some proto) :
    h.Lacks proto key := fun fuel => by
  have hnext := hv (fuel + 1)
  rw [findWithin, hv.own?, hproto] at hnext
  exact hnext

theorem lacks_of_root (hown : h.own? v key = none) (hproto : h.prototype? v = none) :
    h.Lacks v key := fun fuel => by
  cases fuel with
  | zero => rfl
  | succ fuel => rw [findWithin, hown, hproto]

theorem record?_push (h : Heap κ) (o : ObjectRecord κ) (v : Value) :
    record? (h.push o) v = if v = .object h.size then some o else h.record? v := by
  cases v with
  | object r =>
    simp only [record?, Array.getElem?_push, Value.object.injEq]
  | _ => rfl

/-- A new object that lacks a key, and whose prototypes do, brings the key to no other object. -/
theorem Lacks.push (hproto : ∀ proto, o.prototype = some proto → h.Lacks proto key)
    (hown : o.own? key = none) : ∀ (fuel : Nat) (v : Value),
      h.Lacks v key ∨ v = .object h.size → findWithin (h.push o) key fuel v = none
  | 0, _, _ => rfl
  | fuel + 1, v, hv => by
    have hpush := record?_push h o v
    have hnext : Heap.own? (h.push o) v key = none ∧
        ∀ proto, prototype? (h.push o) v = some proto → h.Lacks proto key := by
      rw [Heap.own?, prototype?, hpush]
      by_cases hnew : v = .object h.size
      · rw [if_pos hnew]
        exact ⟨hown, hproto⟩
      · rw [if_neg hnew]
        have hv := hv.resolve_right hnew
        exact ⟨hv.own?, fun _ => hv.prototype⟩
    rw [findWithin, hnext.1]
    dsimp only
    cases hp : prototype? (h.push o) v with
    | none => rfl
    | some proto => exact Lacks.push hproto hown fuel proto (Or.inl (hnext.2 proto hp))

/-- A new object has its own properties under a key that its prototypes lack. -/
theorem find?_push (hproto : ∀ proto, o.prototype = some proto → h.Lacks proto key) :
    find? (h.push o) (.object h.size) key = o.own? key := by
  cases hown : o.own? key with
  | none => exact Lacks.push hproto hown _ _ (Or.inr rfl)
  | some p =>
    rw [find?, Array.size_push, findWithin, Heap.own?, record?_push, if_pos rfl, Option.bind_some,
      hown]

/-- An object that is made with the prototype inherits `nearest` under a key that it lacks. -/
def Yields (h : Heap κ) (proto : Value) (key : String) (nearest : Option Property) : Prop :=
  ∀ o : ObjectRecord κ, o.prototype = some proto → o.own? key = none →
    find? (h.push o) (.object h.size) key = nearest ∧ find? (h.push o) proto key = nearest

theorem Lacks.yields (hlacks : h.Lacks proto key) : h.Yields proto key none := by
  intro o hproto hown
  have hlacks' : ∀ proto, o.prototype = some proto → h.Lacks proto key := by
    rintro _ he
    cases hproto.symm.trans he
    exact hlacks
  exact ⟨(find?_push hlacks').trans hown, Lacks.push hlacks' hown _ _ (Or.inl hlacks)⟩

theorem update_push (h : Heap κ) (o : ObjectRecord κ) (f : ObjectRecord κ → ObjectRecord κ) :
    update (h.push o) h.size f = h.push (f o) := by
  refine Array.ext_getElem? fun i => ?_
  rw [getElem?_update, Array.getElem?_push, Array.getElem?_push]
  by_cases hi : i = h.size
  · rw [if_pos hi.symm, if_pos hi, if_pos hi, Option.map_some]
  · rw [if_neg (Ne.symm hi), if_neg hi, if_neg hi]

end Heap

/-- The record of an object that spells some fields. -/
def ObjectRecord.describing (proto : Value) (fields : List (String × Value)) : ObjectRecord κ :=
  { kind := .object, properties := Properties.ofFields fields, prototype := some proto }

theorem ObjectRecord.describing_insert {proto : Value} {fields : List (String × Value)}
    {field : String × Value}
    (hnew : (describing proto fields : ObjectRecord κ).own? field.1 = none) :
    (describing proto fields : ObjectRecord κ).insert field.1 (.plain field.2) =
      describing proto (fields ++ [field]) := by
  rw [insert_new hnew, describing, describing, Properties.ofFields, Properties.ofFields,
    List.map_append]
  rfl

/-- Getter and setter of a descriptor are functions or undefined. -/
def Descriptor.CallableIn (h : Heap κ) (d : Descriptor) : Prop :=
  ∀ f, d.get = some f ∨ d.set = some f → f = .undefined ∨ h.isCallable f = true

namespace Eval

variable {caller : Caller κ σ} {h : Heap κ} {proto v : Value} {key : String}

/-! ## Writing -/

/-- A new property of an object that is no array. -/
theorem defineOwn_new {w : World κ σ} {r : Ref} {o : ObjectRecord κ} (ho : w.heap[r]? = some o)
    (hkind : o.kind ≠ .array) (hext : o.extensible = true) (hown : o.own? key = none)
    (d : Descriptor) : defineOwn caller (.object r) key d false w =
      .ok true { w with heap := w.heap.update r (·.insert key d.create) } := by
  have hk : ¬w.heap.kind? (.object r) = some .array := by
    rw [Heap.kind?, Heap.record?, ho]
    exact fun he => hkind (Option.some.inj he)
  have hdefine : w.heap.define r key d = (true, w.heap.update r (·.insert key d.create)) := by
    simp only [Heap.define, ho, hown, Descriptor.applyTo?, hext, if_true]
  rw [defineOwn_lenient, defineBy, if_neg hk, change, hdefine]

/--
An assignment on an object that is being made, under a key that it lacks, goes by the property that
it inherits. Without a setter it stores a property, or does nothing if what is inherited is
read-only.
-/
theorem put_inheriting (caller : Caller κ σ) {o : ObjectRecord κ} (hkind : o.kind ≠ .array)
    (hext : o.extensible = true) (hproto : o.prototype = some proto) (hown : o.own? key = none)
    {nearest : Option Property} (hyields : h.Yields proto key nearest) (value : Value) (host : σ) :
    put caller (.object h.size) key value ⟨h.push o, host⟩ =
      (match nearest.bind (·.setter?) with
        | some setter => call caller setter (.object h.size) [value] >>= fun _ => pure ()
        | none => change fun _ =>
          ((), h.push (if nearest.all (·.writable) then o.insert key (.plain value) else o)) :
        Eval κ σ Unit) ⟨h.push o, host⟩ := by
  have ho : (h.push o)[h.size]? = some o := Array.getElem?_push_size
  have hown' : Heap.own? (h.push o) (.object h.size) key = none := (Heap.own?_eq ho).trans hown
  have hprototype : Heap.prototype? (h.push o) (.object h.size) = some proto := by
    rw [Heap.prototype?, Heap.record?, ho, Option.bind_some, hproto]
  have hextensible : Heap.isExtensible (h.push o) (.object h.size) = true := by
    rw [Heap.isExtensible, Heap.record?, ho]
    exact hext
  obtain ⟨hfind, hinherited⟩ := hyields o hproto hown
  have hdefine : ∀ d : Descriptor, d.create = .plain value →
      (defineOwn caller (.object h.size) key d false >>= fun _ => pure ()) ⟨h.push o, host⟩ =
        .ok () ⟨h.push (o.insert key (.plain value)), host⟩ := fun d hd => by
    rw [bind_of_ok (defineOwn_new ho hkind hext hown d), Heap.update_push, hd]
    rfl
  have hcan : Heap.canPut (h.push o) (.object h.size) key = nearest.all (·.acceptsWrite) := by
    rw [Heap.canPut, hown', hprototype, Option.bind_some, hinherited, hextensible]
    rcases nearest with _ | ⟨_ | _⟩ <;> rfl
  rcases nearest with _ | ⟨x, _ | _, e, c⟩ | ⟨get, _ | setter, e, c⟩ <;>
    simp only [put, putWith, objectFor, look, bind, EStateM.bind, pure, EStateM.pure, hcan, hown',
      hfind, Option.all, Property.acceptsWrite, Option.isSome, Bool.false_eq_true, if_true,
      if_false]
  · exact hdefine _ rfl
  · rfl
  · exact hdefine _ rfl
  · rfl
  · rfl

/-- Assigns fields in order. -/
def assign (caller : Caller κ σ) (v : Value) : List (String × Value) → Eval κ σ Unit
  | [] => pure ()
  | (key, value) :: rest => do
    put caller v key value
    assign caller v rest

theorem forIn_put (caller : Caller κ σ) (v : Value) (fields : List (String × Value)) :
    (forIn fields PUnit.unit fun (key, value) _ => do
      put caller v key value
      pure (ForInStep.yield PUnit.unit)) = assign caller v fields := by
  induction fields with
  | nil => rfl
  | cons field rest ih =>
    rw [List.forIn_cons, assign, ← ih, bind_assoc]
    rfl

/--
Fields are assigned in order, up to the first for which a setter is inherited. They are stored but
for those for which a read-only property is inherited. By induction on the fields.
-/
theorem assign_append (caller : Caller κ σ) (host : σ) (nearest : String → Option Property)
    (rest : List (String × Value)) : ∀ fields before : List (String × Value),
    (∀ field ∈ fields, h.Yields proto field.1 (nearest field.1)) →
    (∀ field ∈ fields, (nearest field.1).bind (·.setter?) = none) →
    ((before ++ fields).map Prod.fst).Nodup →
      assign caller (.object h.size) (fields ++ rest) ⟨h.push (.describing proto before), host⟩ =
        assign caller (.object h.size) rest
          ⟨h.push (.describing proto (before ++ fields.filter (takesField nearest))), host⟩
  | [], before, _, _, _ => by rw [List.nil_append, List.filter_nil, List.append_nil]
  | field :: fields, before, hyields, hsetter, hnodup => by
    have hown : (ObjectRecord.describing proto before : ObjectRecord κ).own? field.1 = none :=
      Properties.get?_ofFields_append hnodup
    have hkind : (ObjectRecord.describing proto before : ObjectRecord κ).kind ≠ .array := nofun
    have hput := put_inheriting (h := h) caller hkind rfl rfl hown
      (hyields field List.mem_cons_self) field.2 host
    rw [hsetter field List.mem_cons_self, ← takesField] at hput
    have hrest := fun before' => assign_append caller host nearest rest fields before'
      (fun field hmem => hyields field (List.mem_cons_of_mem _ hmem))
      fun field hmem => hsetter field (List.mem_cons_of_mem _ hmem)
    rw [List.cons_append, assign]
    cases hkept : takesField nearest field with
    | true =>
      rw [hkept, if_pos rfl, ObjectRecord.describing_insert hown] at hput
      have hrest := hrest (before ++ [field]) (by rwa [← List.append_cons])
      rw [List.append_assoc, List.singleton_append] at hrest
      rw [bind_of_ok (hput.trans rfl), List.filter_cons_of_pos hkept]
      exact hrest
    | false =>
      rw [hkept, if_neg Bool.false_ne_true] at hput
      rw [bind_of_ok (hput.trans rfl), List.filter_cons_of_neg (ne_true_of_eq_false hkept)]
      exact hrest before
        (hnodup.sublist (((List.sublist_cons_self field fields).append_left _).map _))

theorem writeDescriptor_assign (caller : Caller κ σ) (proto : Value) (d : Descriptor)
    (w : World κ σ) : writeDescriptor caller proto d w =
      (assign caller (.object w.heap.size) d.fields >>= fun _ => pure (.object w.heap.size))
        { w with heap := w.heap.push (.describing proto []) } := by
  rw [writeDescriptor, bind_of_ok (alloc_eq _ w), forIn_put]
  rfl

/--
Where no setter is inherited, a descriptor is written but for the fields for which something
read-only is.
-/
theorem writeDescriptor_filter {w : World κ σ} {d : Descriptor} (nearest : String → Option Property)
    (hyields : ∀ field ∈ d.fields, w.heap.Yields proto field.1 (nearest field.1))
    (hsetter : ∀ field ∈ d.fields, (nearest field.1).bind (·.setter?) = none) :
    writeDescriptor caller proto d w = .ok (.object w.heap.size)
      { w with heap :=
          w.heap.push (.describing proto (d.fields.filter (takesField nearest))) } := by
  have hassign := assign_append caller w.host nearest [] d.fields [] hyields hsetter d.nodup_fields
  rw [List.append_nil, List.nil_append] at hassign
  rw [writeDescriptor_assign]
  exact bind_of_ok hassign

/-- **A descriptor is written as a new object.** -/
theorem writeDescriptor_eq {w : World κ σ} (hproto : ∀ name ∈ Descriptor.fieldNames,
      w.heap.Lacks proto name) (d : Descriptor) :
    writeDescriptor caller proto d w =
      .ok (.object w.heap.size) { w with heap := w.heap.push (.describing proto d.fields) } := by
  have hall : d.fields.filter (takesField fun _ => none) = d.fields :=
    List.filter_eq_self.mpr fun _ _ => rfl
  have hyields : ∀ field ∈ d.fields, w.heap.Yields proto field.1 none := fun _ hmem =>
    (hproto _ (Descriptor.mem_fieldNames hmem)).yields
  rw [writeDescriptor_filter (fun _ => none) hyields fun _ _ => rfl, hall]

/-! ## Reading -/

/-- An own property under a text is described without running code. -/
theorem getOwnPropertyDescriptor_own (caller : Caller κ σ) {w : World κ σ} {p : Property}
    (hp : w.heap.own? v key = some p) :
    getOwnPropertyDescriptor caller v (.string key) w = .ok (some (.ofProperty p)) w := by
  cases v with
  | object r =>
    show EStateM.Result.ok ((w.heap.own? (.object r) key).map Descriptor.ofProperty) w = _
    rw [hp]
    rfl
  | _ => cases hp

/-- A field that stands as a plain property is read without running code. -/
theorem field?_plain {w : World κ σ} (hv : v.isObject = true) {x : Option Value}
    (hfind : w.heap.find? v key = x.map .plain) : field? caller v key w = .ok x w := by
  have hpresent : w.heap.hasProperty v key = x.isSome := by
    rw [Heap.hasProperty, hfind, Option.isSome_map]
  cases v with
  | object r =>
    cases x with
    | none => simp [field?, look, bind, EStateM.bind, hpresent, pure, EStateM.pure]
    | some x =>
      simp [field?, get, objectFor, look, bind, EStateM.bind, hpresent, hfind, pure, EStateM.pure,
        Property.plain]
  | _ => cases hv

theorem accessorField?_plain {w : World κ σ} (hv : v.isObject = true) {x : Option Value}
    (hfind : w.heap.find? v key = x.map .plain)
    (hx : ∀ f, x = some f → f = .undefined ∨ w.heap.isCallable f = true) :
    accessorField? caller v key w = .ok x w := by
  rw [accessorField?, bind_of_ok (field?_plain hv hfind)]
  cases x with
  | none => rfl
  | some f =>
    have hf : (decide (f = .undefined) || w.heap.isCallable f) = true := by simpa using hx f rfl
    show (if (decide (f = .undefined) || w.heap.isCallable f) = true then
      (pure (some f) : Eval κ σ (Option Value)) else fail (.badAccessor key)) w = _
    rw [if_pos hf]
    rfl

/-- **A descriptor is read back from the object that spells it.** -/
theorem readDescriptor_eq (caller : Caller κ σ) {w : World κ σ}
    (hproto : ∀ name ∈ Descriptor.fieldNames, h.Lacks proto name) {d : Descriptor}
    (hkinds : (d.isData && d.isAccessor) = false)
    (hw : w.heap = h.push (.describing proto d.fields)) (hcallable : d.CallableIn w.heap) :
    readDescriptor caller (.object h.size) w = .ok d w := by
  have hfind : ∀ name ∈ Descriptor.fieldNames, ∀ x, (d.named.lookup name).join = x →
      w.heap.find? (.object h.size) name = x.map .plain := by
    rintro name hname x rfl
    rw [hw, Heap.find?_push fun _ he => Option.some.inj he ▸ hproto name hname]
    exact d.get?_ofFields name
  have hflag : ∀ b : Option Bool, (b.map Value.boolean).map (·.toBoolean) = b := by
    rintro (_ | _) <;> rfl
  have hv : (Value.object h.size).isObject = true := rfl
  have hvalue := hfind "value" (by decide) d.value rfl
  have hwritable := hfind "writable" (by decide) (d.writable.map .boolean) rfl
  have hget := hfind "get" (by decide) d.get rfl
  have hset := hfind "set" (by decide) d.set rfl
  have henumerable := hfind "enumerable" (by decide) (d.enumerable.map .boolean) rfl
  have hconfigurable := hfind "configurable" (by decide) (d.configurable.map .boolean) rfl
  rw [readDescriptor, if_neg (by simp [Value.isObject]), bind_of_ok (field?_plain hv henumerable),
    bind_of_ok (field?_plain hv hconfigurable), bind_of_ok (field?_plain hv hvalue),
    bind_of_ok (field?_plain hv hwritable),
    bind_of_ok (accessorField?_plain hv hget fun f hf => hcallable f (Or.inl hf)),
    bind_of_ok (accessorField?_plain hv hset fun f hf => hcallable f (Or.inr hf))]
  rw [hflag, hflag, hflag, if_neg (by simp [hkinds])]
  rfl

end Eval

end Es5
