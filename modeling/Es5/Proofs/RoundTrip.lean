import Es5.Proofs.Length
import Es5.Proofs.Spelled

/-!
# Properties by their descriptions

The description of a property is an object from which its complete descriptor is read back. So
defining the property as it is described changes nothing, whatever its object admits, and defining
it on another object copies it.

* `Property.CallableIn`: getter and setter are functions.
* `Eval.defineOwn_same`: the complete descriptor of a property is accepted and changes nothing.
* **`Eval.description_round_trip`**: a property is described, left as it is, and copied.
-/

namespace Es5

variable {κ σ : Type}

/-! ## Complete descriptors -/

namespace Descriptor

theorem within_ofProperty (p : Property) : (ofProperty p).within p = true := by
  simp [within, fieldWithin]

theorem applyTo?_ofProperty (extensible : Bool) (p : Property) :
    (ofProperty p).applyTo? extensible (some p) = some p := by
  rw [applyTo?, within_ofProperty, Bool.or_true, if_pos rfl]

theorem not_mixed_ofProperty (p : Property) :
    ((ofProperty p).isData && (ofProperty p).isAccessor) = false := by
  cases p <;> rfl

end Descriptor

/-- Getter and setter, if there are any, are functions. -/
def Property.CallableIn (h : Heap κ) : Property → Prop
  | data .. => True
  | accessor get set _ _ => ∀ f, get = some f ∨ set = some f → h.isCallable f = true

variable {h h' : Heap κ} {r : Ref} {o : ObjectRecord κ} {key : String} {p : Property}

theorem Heap.Extends.isCallable {f : Value} (hext : h.Extends h') (hf : h.isCallable f = true) :
    h'.isCallable f = true := by
  cases f with
  | object r =>
    cases ho : h[r]? with
    | none =>
      rw [Heap.isCallable, Heap.record?, ho] at hf
      cases hf
    | some o =>
      rw [Heap.isCallable, Heap.record?, ho] at hf
      rw [Heap.isCallable, Heap.record?, hext r o ho]
      exact hf
  | _ => cases hf

namespace Property.CallableIn

theorem ofProperty (hp : p.CallableIn h) (hext : h.Extends h') :
    (Descriptor.ofProperty p).CallableIn h' := by
  have hhalf : ∀ half : Option Value, (∀ f, half = some f → h.isCallable f = true) →
      ∀ f, some (half.getD .undefined) = some f → f = .undefined ∨ h'.isCallable f = true := by
    rintro (_ | f) hf _ ⟨⟩
    · exact Or.inl rfl
    · exact Or.inr (hext.isCallable (hf f rfl))
  cases p with
  | data v w e c => rintro f (hf | hf) <;> cases hf
  | accessor g s e c =>
    rintro f (hf | hf)
    · exact hhalf g (fun f hg => hp f (Or.inl hg)) f hf
    · exact hhalf s (fun f hs => hp f (Or.inr hs)) f hf

/-- A complete descriptor makes the property that it is of. -/
theorem create (hp : p.CallableIn h) : (Descriptor.ofProperty p).create = p := by
  have hslot : ∀ half : Option Value, (∀ f, half = some f → h.isCallable f = true) →
      Descriptor.slot (some (half.getD .undefined)) = half := by
    rintro (_ | f) hf
    · rfl
    · have hne : f ≠ .undefined := fun he => by
        have hcallable := hf f rfl
        rw [he] at hcallable
        cases hcallable
      simp [Descriptor.slot, hne]
  cases p with
  | data v w e c => rfl
  | accessor g s e c =>
    show Property.accessor (Descriptor.slot (some (g.getD .undefined)))
      (Descriptor.slot (some (s.getD .undefined))) e c = .accessor g s e c
    rw [hslot g fun f hg => hp f (Or.inl hg), hslot s fun f hs => hp f (Or.inr hs)]

end Property.CallableIn

namespace Heap

theorem update_insert_same (ho : h[r]? = some o) (hp : o.own? key = some p) :
    h.update r (·.insert key p) = h := by
  refine Array.ext_getElem? fun i => ?_
  by_cases hi : r = i
  · subst hi
    rw [getElem?_update_self ho, ho, ObjectRecord.insert, Properties.insert_of_get? hp]
  · rw [getElem?_update_of_ne hi]

theorem define_same (ho : h[r]? = some o) (hp : o.own? key = some p) :
    h.define r key (.ofProperty p) = (true, h) := by
  rcases define_cases ho key (.ofProperty p) with ⟨hn, -⟩ | ⟨q, hq, he⟩
  · rw [hp, Descriptor.applyTo?_ofProperty] at hn
    cases hn
  · rw [hp, Descriptor.applyTo?_ofProperty] at hq
    cases hq
    rw [he, update_insert_same ho hp]

end Heap

theorem length?_lengthValue {n : Nat} (hn : n ≤ maxLength) :
    (Heap.lengthValue n).length? = some n := by
  show (if (Double.ofNat (Double.ofNat n).toUint32).equal (Double.ofNat n) then
    some (Double.ofNat n).toUint32 else none) = some n
  rw [Double.toUint32_ofNat hn, if_pos (Double.equal_self (Double.isNaN_ofNat hn))]

namespace Eval

variable {caller : Caller κ σ} {w : World κ σ}

theorem defineOnArray_same {n : Nat} {writable : Bool} (ho : w.heap[r]? = some o)
    (hl : o.LengthIs n writable) (hbelow : o.IndicesBelow n) (hp : o.own? key = some p) :
    defineOnArray caller r key (.ofProperty p) w = .ok true w := by
  have hdefine := Heap.define_same ho hp
  have hlength := Heap.arrayLength_of_lengthIs ho hl
  by_cases hkey : key = "length"
  · subst hkey
    cases hl.own.symm.trans hp
    have hconverted : lengthOf caller (Heap.lengthValue n) w = .ok n w := by
      rw [lengthOf_plain rfl, length?_lengthValue hl.le]
    have hset : w.heap.setLength r (n, writable) n (.ofProperty (.length n writable)) =
        (true, w.heap) := by
      rw [Heap.setLength, if_pos (Nat.le_refl n)]
      exact hdefine
    rw [defineOnArray_length rfl, bind_of_ok hconverted, hlength, change, hset]
  · rw [defineOnArray, if_neg hkey]
    cases hi : arrayIndex? key with
    | none =>
      show change (·.define r key (.ofProperty p)) w = _
      rw [change, hdefine]
    | some i =>
      have hlt : i < n := hbelow key (ObjectRecord.mem_keys_of_own? hp) i hi
      show change (·.defineElement r i key (.ofProperty p)) w = _
      rw [change, Heap.defineElement_of_lt (by rw [hlength]; exact hlt), hdefine]

/-- The complete descriptor of a property is accepted and changes nothing. -/
theorem defineOwn_same (ho : w.heap[r]? = some o) (hcovered : o.kind = .array → o.IsCovered)
    (hp : o.own? key = some p) (strict : Bool) :
    defineOwn caller (.object r) key (.ofProperty p) strict w = .ok true w := by
  have hlenient : defineOwn caller (.object r) key (.ofProperty p) false w = .ok true w := by
    have hdefine := Heap.define_same ho hp
    rw [defineOwn_lenient, defineBy]
    split
    · rename_i hk
      rw [Heap.kind?, Heap.record?, ho] at hk
      obtain ⟨n, writable, hl, hbelow⟩ := hcovered (Option.some.inj hk)
      exact defineOnArray_same ho hl hbelow hp
    · rw [change, hdefine]
  cases strict with
  | false => exact hlenient
  | true => rw [defineOwn_strict, hlenient]

end Eval

/-! ## Round trips -/

namespace Eval

theorem toText_string (caller : Caller κ σ) (s : String) (w : World κ σ) :
    toText caller (.string s) w = .ok s w := rfl

/-- A property of another object is copied by its descriptor. -/
theorem defineOwn_copy (caller : Caller κ σ) {w : World κ σ} (hcallable : p.CallableIn h)
    (ho : w.heap[r]? = some o) (hkind : o.kind ≠ .array) (hopen : o.extensible = true)
    (hnew : o.own? key = none) :
    defineOwn caller (.object r) key (.ofProperty p) true w =
      .ok true { w with heap := w.heap.update r (·.insert key p) } := by
  rw [defineOwn_strict, defineOwn_new ho hkind hopen hnew, hcallable.create]

/-- The function that describes properties, on an own property. -/
theorem call_describe {depth : Nat} {w : World (Behaviour σ) σ}
    {o : ObjectRecord (Behaviour σ)} {f proto : Value} (this : Value)
    (hf : (w.heap.record? f).bind (·.call) = some (.provided (.getOwnPropertyDescriptor proto)))
    (hproto : ∀ name ∈ Descriptor.fieldNames, w.heap.Lacks proto name)
    (ho : w.heap[r]? = some o) (hp : o.own? key = some p) :
    call (runBehaviour (depth + 1)) f this [.object r, .string key] w =
      .ok (.object w.heap.size)
        { w with heap := w.heap.push (.describing proto (Descriptor.ofProperty p).fields) } := by
  have hown : w.heap.own? (.object r) key = some p := (Heap.own?_eq ho).trans hp
  have hdescribed := getOwnPropertyDescriptor_own (runBehaviour depth) hown
  have hcall : call (runBehaviour (depth + 1)) f this [.object r, .string key] w =
      runBehaviour (depth + 1) (.provided (.getOwnPropertyDescriptor proto)) this
        [.object r, .string key] w := by
    simp only [call, look, bind, EStateM.bind, hf]
  rw [hcall]
  exact (bind_of_ok hdescribed).trans (writeDescriptor_eq hproto _)

/--
**A property is described, left as it is, and copied.** The function of a realm that describes
properties makes a new object, if no prototype of that has a field of a descriptor. The complete
descriptor of the property is read back from it. Defining the property by it succeeds and changes
nothing, be its object closed or its property permanent, if an array has a length above its
indices. Defining it on another object that is open, no array and without the key appends the same
property, and changes nothing else.
-/
theorem description_round_trip (depth : Nat) {w : World (Behaviour σ) σ} {f proto : Value}
    (hf : (w.heap.record? f).bind (·.call) = some (.provided (.getOwnPropertyDescriptor proto)))
    (hproto : ∀ name ∈ Descriptor.fieldNames, w.heap.Lacks proto name)
    {o : ObjectRecord (Behaviour σ)} (ho : w.heap[r]? = some o)
    (hcovered : o.kind = .array → o.IsCovered) (hp : o.own? key = some p)
    (hcallable : p.CallableIn w.heap) (this : Value) :
    ∃ described : ObjectRecord (Behaviour σ),
      let D : Value := .object w.heap.size
      let w' : World (Behaviour σ) σ := { w with heap := w.heap.push described }
      call (runBehaviour (depth + 1)) f this [.object r, .string key] w = .ok D w' ∧
      ∀ caller : Caller (Behaviour σ) σ,
        readDescriptor caller D w' = .ok (.ofProperty p) w' ∧
        defineProperty caller (.object r) (.string key) D w' = .ok (.object r) w' ∧
        ∀ (t : Ref) (target : ObjectRecord (Behaviour σ)), w'.heap[t]? = some target →
          target.kind ≠ .array → target.extensible = true → target.own? key = none →
          ∃ w'', defineProperty caller (.object t) (.string key) D w' = .ok (.object t) w'' ∧
            w''.host = w'.host ∧
            w''.heap[t]? =
              some { target with properties := target.properties ++ [(key, p)] } ∧
            ∀ r', r' ≠ t → w''.heap[r']? = w'.heap[r']? := by
  refine ⟨.describing proto (Descriptor.ofProperty p).fields,
    call_describe this hf hproto ho hp, fun caller => ?_⟩
  have hext := w.heap.extends_push (.describing proto (Descriptor.ofProperty p).fields)
  have hread := readDescriptor_eq caller
    (w := { w with heap := w.heap.push (.describing proto (Descriptor.ofProperty p).fields) })
    hproto (Descriptor.not_mixed_ofProperty p) rfl (hcallable.ofProperty hext)
  refine ⟨hread, ?_, fun t target ht hkind hopen hnew => ?_⟩
  · rw [defineProperty_eq (toText_string caller key _) hread,
      bind_of_ok (defineOwn_same (hext r o ho) hcovered hp true)]
    rfl
  · have hcopied := defineOwn_copy caller hcallable ht hkind hopen hnew
    refine ⟨_, (defineProperty_eq (toText_string caller key _) hread).trans (bind_of_ok hcopied),
      rfl, ?_, fun r' hr => Heap.getElem?_update_of_ne (Ne.symm hr) _⟩
    rw [← ObjectRecord.insert_new hnew]
    exact Heap.getElem?_update_self ht _

/-- A new realm. -/
def realmWorld : World (Behaviour Unit) Unit := after (newRealm .provided) ⟨#[], ()⟩

/-- A closed object with a permanent property that has the object at `4` as its getter. -/
def closedAccessor : ObjectRecord (Behaviour Unit) :=
  { kind := .object, extensible := false,
    properties := [("p", .accessor (some (.object 4)) none true false)] }

/-- A realm, and a closed object that has a method of the realm as its getter. -/
def accessorWorld : World (Behaviour Unit) Unit :=
  { realmWorld with heap := realmWorld.heap.push closedAccessor }

/-- An accessor without setter, described by the function of the realm. -/
theorem description_round_trip_accessor :
    let describe : Value := .object 10
    let d : Descriptor :=
      { get := some (.object 4), set := some .undefined, enumerable := some true,
        configurable := some false }
    accessorWorld.heap.own? (.object 3) "getOwnPropertyDescriptor" = some (.method describe) ∧
      ∃ D w', call (runBehaviour 1) describe .undefined [.object 17, .string "p"] accessorWorld =
          .ok D w' ∧
        readDescriptor (runBehaviour 0) D w' = .ok d w' ∧
        defineProperty (runBehaviour 0) (.object 17) (.string "p") D w' = .ok (.object 17) w' := by
  intro describe d
  have hmethod : accessorWorld.heap.own? (.object 3) "getOwnPropertyDescriptor" =
      some (.method describe) := by decide +kernel
  have hf : (accessorWorld.heap.record? describe).bind (·.call) =
      some (.provided (.getOwnPropertyDescriptor (.object 0))) := by
    have htest : ((accessorWorld.heap.record? describe).bind (·.call)).any (fun
      | .provided i => i == .getOwnPropertyDescriptor (.object 0)
      | .user _ => false) = true := by decide +kernel
    cases hb : (accessorWorld.heap.record? describe).bind (·.call) with
    | none =>
      rw [hb] at htest
      cases htest
    | some b =>
      rw [hb] at htest
      cases b with
      | provided i => rw [eq_of_beq htest]
      | user body => cases htest
  have hproto : ∀ name ∈ Descriptor.fieldNames, accessorWorld.heap.Lacks (.object 0) name := by
    have hown : ∀ name ∈ Descriptor.fieldNames,
        accessorWorld.heap.own? (.object 0) name = none := by decide +kernel
    have hroot : accessorWorld.heap.prototype? (.object 0) = none := by decide +kernel
    exact fun name hname => Heap.lacks_of_root (hown name hname) hroot
  have hsize : realmWorld.heap.size = 17 := by decide +kernel
  have ho : accessorWorld.heap[17]? = some closedAccessor := hsize ▸ Array.getElem?_push_size
  have hcallable : accessorWorld.heap.isCallable (.object 4) = true := by decide +kernel
  have hp : closedAccessor.own? "p" = some (.accessor (some (.object 4)) none true false) := rfl
  obtain ⟨described, hcall, hdefine⟩ := description_round_trip 0 hf hproto ho
    (fun hk => nomatch hk) hp (fun f hg => by rcases hg with hg | hg <;> cases hg; exact hcallable)
    .undefined
  exact ⟨hmethod, _, _, hcall, (hdefine (runBehaviour 0)).1, (hdefine (runBehaviour 0)).2.1⟩

end Eval

end Es5
