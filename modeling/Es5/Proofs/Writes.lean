import Es5.Proofs.Along
import Es5.Proofs.Record
import Es5.Proofs.WholeNumber

/-!
# Relations kept where properties are written

The rules of arrays are put together from definitions and deletions on one object, and the
definition of a property is one of them or a plain definition. So a relation between heaps has to
be shown for little more than `Heap.define` and `Heap.delete`.

* `Heap.KeptFor d r stored removed R`, `Heap.KeptAt r R`: definitions and deletions on the object at
  `r` respect `R`, some of them or all.
* `Heap.Lift Q`: every object stays, and its record goes along `Q`.
* `ObjectRecord.Evolution Q`: what a relation between records of one object has to respect.
* **`Heap.Passage.defineOwn`**: a relation kept by the single definitions holds along whole ones.
* **`Heap.Writes.evolution`**: a relation kept by the rules evolves.
* **`ObjectRecord.Evolution.heap`**: so does a relation of records, object by object.
-/

namespace Es5

variable {κ σ : Type}

/-! ## The rules of arrays -/

/-- Getter and setter are those of `d`, or neither is there. -/
def Descriptor.HalvesOf (d d' : Descriptor) : Prop :=
  d'.get = d.get ∧ d'.set = d.set ∨ d'.get = none ∧ d'.set = none

/--
On the object at `r`, definitions of `stored` keys and deletions of `removed` keys respect a
relation. The definitions are those into which the rules of arrays take one by `d` apart.
-/
structure Heap.KeptFor (d : Descriptor) (r : Ref) (stored removed : String → Prop)
    (R : Heap κ → Heap κ → Prop) : Prop where
  refl (h : Heap κ) : R h h
  trans {h₁ h₂ h₃ : Heap κ} : R h₁ h₂ → R h₂ h₃ → R h₁ h₃
  define (h : Heap κ) {key : String} (hkey : stored key) {d' : Descriptor} (hd : d.HalvesOf d') :
    R h (h.define r key d').2
  delete (h : Heap κ) {key : String} (hkey : removed key) : R h (h.delete r key).2

namespace Heap.KeptFor

variable {d : Descriptor} {r : Ref} {stored removed : String → Prop} {R : Heap κ → Heap κ → Prop}
  (hR : KeptFor d r stored removed R)

include hR

theorem define_plain (h : Heap κ) {key : String} (hkey : stored key) (value : Option Value)
    (writable : Option Bool) : R h (h.define r key { value, writable }).2 :=
  hR.define h hkey (Or.inr ⟨rfl, rfl⟩)

theorem define_like (h : Heap κ) {key : String} (hkey : stored key) (value : Option Value)
    (writable : Option Bool) : R h (h.define r key { d with value, writable }).2 :=
  hR.define h hkey (Or.inl ⟨rfl, rfl⟩)

theorem defineElement (h : Heap κ) (index : Nat) {key : String} (hkey : stored key)
    (hlength : stored "length") : R h (h.defineElement r index key d).2 := by
  have hd : R h (h.define r key d).2 := hR.define_like h hkey d.value d.writable
  rw [Heap.defineElement]
  dsimp only
  split
  · exact hR.refl h
  · rcases he : h.define r key d with ⟨_ | _, h'⟩
    · rw [he] at hd
      exact hd
    · rw [he] at hd
      dsimp only
      split
      · exact hR.trans hd (hR.define_plain h' hlength _ _)
      · exact hd

variable (hremoved : ∀ i, removed (indexKey i))

include hremoved

theorem deleteElements : ∀ (indices : List Nat) (h : Heap κ),
    R h (h.deleteElements r indices).2
  | [], h => hR.refl h
  | i :: rest, h => by
    have hd := hR.delete h (hremoved i)
    rw [Heap.deleteElements]
    rcases he : h.delete r (indexKey i) with ⟨_ | _, h'⟩
    · rw [he] at hd
      exact hd
    · rw [he] at hd
      exact hR.trans hd (deleteElements rest h')

variable (hlength : stored "length")

include hlength

theorem truncate (h : Heap κ) (length : Nat) (value : Option Value) :
    R h (h.truncate r length { d with value }).2 := by
  have hd := hR.define_like h hlength value (some true)
  rw [Heap.truncate]
  dsimp only
  rcases he : h.define r "length" { d with value, writable := some true } with ⟨_ | _, h₁⟩
  · rw [he] at hd
    exact hd
  · rw [he] at hd
    have hs := hR.deleteElements hremoved (h₁.indicesFrom r length) h₁
    dsimp only
    rcases hf : h₁.deleteElements r (h₁.indicesFrom r length) with ⟨_ | i, h₂⟩
    · rw [hf] at hs
      dsimp only
      split
      · exact hR.trans hd hs
      · exact hR.trans (hR.trans hd hs) (hR.define_plain h₂ hlength _ _)
    · rw [hf] at hs
      exact hR.trans (hR.trans hd hs) (hR.define_plain h₂ hlength _ _)

theorem setLength (h : Heap κ) (former : Nat × Bool) (length : Nat) :
    R h (h.setLength r former length d).2 := by
  rw [Heap.setLength]
  split
  · exact hR.define_like h hlength _ d.writable
  · split
    · exact hR.refl h
    · exact hR.truncate hremoved hlength h length _

end Heap.KeptFor

/-- Definitions and deletions on the object at `r` respect a relation. -/
structure Heap.KeptAt (r : Ref) (R : Heap κ → Heap κ → Prop) : Prop where
  refl (h : Heap κ) : R h h
  trans {h₁ h₂ h₃ : Heap κ} : R h₁ h₂ → R h₂ h₃ → R h₁ h₃
  define (h : Heap κ) (key : String) (d : Descriptor) : R h (h.define r key d).2
  delete (h : Heap κ) (key : String) : R h (h.delete r key).2

namespace Heap.KeptAt

variable {r : Ref} {R : Heap κ → Heap κ → Prop} (hR : KeptAt r R)

include hR

theorem keptFor (d : Descriptor) : KeptFor d r (fun _ => True) (fun _ => True) R where
  refl := hR.refl
  trans := hR.trans
  define h key _ d' _ := hR.define h key d'
  delete h key _ := hR.delete h key

theorem defineElement (h : Heap κ) (index : Nat) (key : String) (d : Descriptor) :
    R h (h.defineElement r index key d).2 := (hR.keptFor d).defineElement h index trivial trivial

theorem deleteElements (indices : List Nat) (h : Heap κ) : R h (h.deleteElements r indices).2 :=
  (hR.keptFor {}).deleteElements (fun _ => trivial) indices h

theorem setLength (h : Heap κ) (former : Nat × Bool) (length : Nat) (d : Descriptor) :
    R h (h.setLength r former length d).2 :=
  (hR.keptFor d).setLength (fun _ => trivial) trivial h former length

end Heap.KeptAt

/-- A definition or deletion at `r` leaves the other objects as they are. -/
theorem Heap.keptAt_others (r : Ref) :
    KeptAt r fun h h' : Heap κ => ∀ r', r ≠ r' → h'[r']? = h[r']? where
  refl _ _ _ := rfl
  trans h₁ h₂ r' hr := (h₂ r' hr).trans (h₁ r' hr)
  define h key d r' hr := by
    rcases define_snd h r key d with he | ⟨o, p, -, -, he⟩
    · rw [he]
    · rw [he, getElem?_update_of_ne hr]
  delete h key r' hr := by
    rcases delete_snd h r key with he | ⟨o, p, -, -, -, he⟩
    · rw [he]
    · rw [he, getElem?_update_of_ne hr]

/-! ## Whole definitions -/

/--
Relations kept by the rules by which properties are written. The rule for the length is given the
present length of an object of `S`; that of another object may have changed since it was read.
-/
structure Heap.Writes (S : Value → Prop) (R : Heap κ → Heap κ → Prop) : Prop
    extends Heap.Growth R where
  close (h : Heap κ) (r : Ref) : R h (h.update r fun o => { o with extensible := false })
  delete (h : Heap κ) (r : Ref) (key : String) : R h (h.delete r key).2
  define {h : Heap κ} {r : Ref} {key : String} {d : Descriptor}
    (hd : h.kind? (.object r) = some .array →
      if key = "length" then d.value = none else arrayIndex? key = none) :
    R h (h.define r key d).2
  element (h : Heap κ) (r : Ref) {index : Nat} {key : String} (hkey : arrayIndex? key = some index)
    (d : Descriptor) : R h (h.defineElement r index key d).2
  length {h : Heap κ} {r : Ref} {former : Nat × Bool} {length : Nat} (d : Descriptor)
    (hformer : S (.object r) → former = h.arrayLength r) (hlength : length ≤ maxLength) :
    R h (h.setLength r former length d).2

/-- The length that a plain value gives. -/
def Value.length? (v : Value) : Option Nat :=
  let n := v.plainNumber.toUint32
  if (Double.ofNat n).equal v.plainNumber then some n else none

namespace Eval

variable {caller : Caller κ σ} {w w' : World κ σ} {v : Value} {n : Nat}

theorem toNumber_plain (hv : v.isObject = false) :
    toNumber caller v w = .ok v.plainNumber w := by
  have hp : toPrimitive caller v .number w = .ok v w := by
    rw [toPrimitive, if_neg (by simp [hv])]
    rfl
  rw [toNumber, bind_of_ok hp]
  rfl

/-- Plain values convert without running any code. -/
theorem lengthOf_plain (hv : v.isObject = false) : lengthOf caller v w =
    match v.length? with
    | some n => .ok n w
    | none => .error (.threw .invalidLength) w := by
  have hlength : toUint32 caller v w = .ok v.plainNumber.toUint32 w := by
    rw [toUint32, bind_of_ok (toNumber_plain hv)]
    rfl
  rw [lengthOf, bind_of_ok hlength, bind_of_ok (toNumber_plain hv), Value.length?]
  generalize v.plainNumber.toUint32 = n
  cases (Double.ofNat n).equal v.plainNumber <;> rfl

theorem lengthOf_of_plain (hv : v.isObject = false) (h : lengthOf caller v w = .ok n w') :
    w' = w := by
  rw [lengthOf_plain hv] at h
  split at h
  · cases h
    rfl
  · cases h

theorem lengthOf_le (h : lengthOf caller v w = .ok n w') : n ≤ maxLength := by
  unfold lengthOf toUint32 at h
  obtain ⟨length, w₁, h₁, h⟩ := ok_of_bind h
  obtain ⟨x, w₂, -, h⟩ := ok_of_bind h
  obtain ⟨y, w₃, -, h₁⟩ := ok_of_bind h₁
  cases h₁
  split at h
  · cases h
    exact y.toUint32_le
  · cases h

/-- A length is converted before the array changes, and compared with the one from before that. -/
theorem defineOnArray_length {r : Ref} {d : Descriptor} (hd : d.value = some v) :
    defineOnArray caller r "length" d w = (lengthOf caller v >>= fun m =>
      change (·.setLength r (w.heap.arrayLength r) m d)) w := by
  rw [defineOnArray, if_pos rfl, hd]
  rfl

/-- The rule by which a property of the object at `r` is defined. -/
def defineBy (caller : Caller κ σ) (r : Ref) (key : String) (d : Descriptor) : Eval κ σ Bool :=
  fun w => (if w.heap.kind? (.object r) = some .array then defineOnArray caller r key d
    else change (·.define r key d)) w

/-- A definition follows its rule, and a refusal throws if it is strict. -/
theorem defineOwn_object (caller : Caller κ σ) (r : Ref) (key : String) (d : Descriptor)
    (strict : Bool) (w : World κ σ) : defineOwn caller (.object r) key d strict w =
      (defineBy caller r key d >>= fun accepted =>
        if !accepted && strict then fail (.unredefinable key) else pure accepted) w := by
  simp only [defineOwn, defineBy, objectFor, look, bind, EStateM.bind, pure, EStateM.pure]
  split <;> rfl

theorem defineOwn_lenient (caller : Caller κ σ) (r : Ref) (key : String) (d : Descriptor)
    (w : World κ σ) : defineOwn caller (.object r) key d false w = defineBy caller r key d w := by
  rw [defineOwn_object]
  simp only [Bool.and_false, Bool.false_eq_true, if_false, bind_pure]

/-- A strict definition is a lenient one whose refusal throws. -/
theorem defineOwn_strict (caller : Caller κ σ) (v : Value) (key : String) (d : Descriptor)
    (w : World κ σ) : defineOwn caller v key d true w =
      match defineOwn caller v key d false w with
      | .ok false w' => .error (.threw (.unredefinable key)) w'
      | result => result := by
  cases v with
  | object r =>
    rw [defineOwn_lenient, defineOwn_object]
    rcases h : defineBy caller r key d w with ⟨_ | _, w'⟩ | ⟨e, w'⟩
    · rw [bind_of_ok h]
      rfl
    · rw [bind_of_ok h]
      rfl
    · rw [bind_of_error h]
  | _ => rfl

/-- A definition ends where its rule ends: a refusal at most throws. -/
theorem after_defineOwn (caller : Caller κ σ) (r : Ref) (key : String) (d : Descriptor)
    (strict : Bool) (w : World κ σ) : after (defineOwn caller (.object r) key d strict) w =
      after (if w.heap.kind? (.object r) = some .array then defineOnArray caller r key d
        else change (·.define r key d)) w := by
  show _ = after (defineBy caller r key d) w
  cases strict with
  | false => rw [after, defineOwn_lenient, after]
  | true =>
    rw [after, defineOwn_strict, defineOwn_lenient, after]
    rcases defineBy caller r key d w with ⟨_ | _, w'⟩ | ⟨e, w'⟩ <;> rfl

end Eval

/-! ## Whole definitions along a relation -/

/--
**A relation kept by single definitions holds along whole ones.** What it needs of the heap may
depend on the descriptor; it has to last while the length of an array is converted.
-/
theorem Heap.Passage.defineOwn {R : Heap κ → Heap κ → Prop} (hR : Heap.Passage R)
    {caller : Caller κ σ} (hc : Eval.CallsAlong R caller) {d : Descriptor} {fits : Heap κ → Prop}
    (hlast : ∀ h h', R h h' → fits h → fits h')
    (hkept : ∀ r, KeptFor d r (fun _ => True) (fun _ => True) fun h h' => fits h → R h h')
    (v : Value) (key : String)
    {w : World κ σ} (hd : fits w.heap) (strict : Bool) :
    Eval.Along R (Eval.defineOwn caller v key d strict) w := by
  cases v with
  | object r =>
    have hdefine : R w.heap (w.heap.define r key d).2 :=
      (hkept r).define_like w.heap trivial d.value d.writable hd
    unfold Eval.Along
    rw [Eval.after_defineOwn]
    split
    · show Eval.Along R (Eval.defineOnArray caller r key d) w
      unfold Eval.defineOnArray
      split
      · rename_i hkey
        subst hkey
        cases hv : d.value with
        | none => exact hdefine
        | some x =>
          refine hR.bind_of (hR.look _ w) fun former w₁ hw₁ => ?_
          cases hw₁
          have hlength := hR.lengthOf hc x w
          refine hR.bind_of hlength fun length w₂ hw₂ => ?_
          have hlater := hlast _ _ (hlength.ok hw₂) hd
          exact (hkept r).setLength (fun _ => trivial) trivial w₂.heap _ length hlater
      · split
        · exact (hkept r).defineElement w.heap _ trivial trivial hd
        · exact hdefine
    · exact hdefine
  | _ => exact hR.objectFor_bind rfl w

/-! ## Relations evolve -/

theorem Heap.Writes.defineOnArray {S : Value → Prop} {R : Heap κ → Heap κ → Prop}
    (hR : Heap.Writes S R) {caller : Caller κ σ}
    (hc : Eval.CallsAlong R caller) {r : Ref} {key : String} {d : Descriptor}
    (hd : PlainLength S (.object r) key d.value) (w : World κ σ) :
    Eval.Along R (Eval.defineOnArray caller r key d) w := by
  unfold Eval.defineOnArray
  split
  · rename_i hkey
    subst hkey
    cases hv : d.value with
    | none => exact hR.define fun _ => by rw [if_pos rfl, hv]
    | some v =>
      refine hR.bind_of (hR.look _ w) fun former w₁ hw₁ => ?_
      cases hw₁
      refine hR.bind_of (hR.lengthOf hc v w) fun length w₂ hw₂ => ?_
      refine hR.length d (fun hS => ?_) (Eval.lengthOf_le hw₂)
      rw [Eval.lengthOf_of_plain (hd hS rfl v hv) hw₂]
  · rename_i hkey
    split
    · rename_i hi
      exact hR.element w.heap r hi d
    · rename_i hi
      exact hR.define fun _ => by rw [if_neg hkey, hi]

/-- **A relation kept by the rules by which properties are written evolves.** -/
theorem Heap.Writes.evolution {S : Value → Prop} {R : Heap κ → Heap κ → Prop}
    (hR : Heap.Writes S R) : Heap.Evolution S R where
  toGrowth := hR.toGrowth
  close := hR.close
  delete := hR.delete
  define {σ caller} hc {v key d} hd strict w := by
    cases v with
    | object r =>
      unfold Eval.Along
      rw [Eval.after_defineOwn]
      split
      · exact hR.defineOnArray hc hd w
      · exact hR.define fun hk => absurd hk ‹_›
    | _ => exact hR.objectFor_bind rfl w

/-! ## Records -/

/-- Every object stays, and its record goes along `Q`. -/
def Heap.Lift (Q : ObjectRecord κ → ObjectRecord κ → Prop) (h h' : Heap κ) : Prop :=
  ∀ (r : Ref) (o : ObjectRecord κ), h[r]? = some o → ∃ o', h'[r]? = some o' ∧ Q o o'

/-- Relations between the record of an object and every later one, for one change at a time. -/
structure ObjectRecord.Evolution (Q : ObjectRecord κ → ObjectRecord κ → Prop) : Prop where
  refl (o : ObjectRecord κ) : Q o o
  trans {o₁ o₂ o₃ : ObjectRecord κ} : Q o₁ o₂ → Q o₂ o₃ → Q o₁ o₃
  close (o : ObjectRecord κ) : Q o { o with extensible := false }
  insert {o : ObjectRecord κ} {key : String} {d : Descriptor} {p : Property}
    (hp : d.applyTo? o.extensible (o.own? key) = some p) : Q o (o.insert key p)
  erase {o : ObjectRecord κ} {key : String} {p : Property} (hp : o.own? key = some p)
    (hc : p.configurable = true) : Q o (o.erase key)

namespace ObjectRecord.Evolution

variable {Q : ObjectRecord κ → ObjectRecord κ → Prop} (hQ : ObjectRecord.Evolution Q)

include hQ

theorem lift_refl (h : Heap κ) : h.Lift Q h := fun _ o ho => ⟨o, ho, hQ.refl o⟩

theorem lift_trans {h₁ h₂ h₃ : Heap κ} (h₁₂ : h₁.Lift Q h₂) (h₂₃ : h₂.Lift Q h₃) :
    h₁.Lift Q h₃ := fun r o₁ ho₁ => by
  obtain ⟨o₂, ho₂, hq₁₂⟩ := h₁₂ r o₁ ho₁
  obtain ⟨o₃, ho₃, hq₂₃⟩ := h₂₃ r o₂ ho₂
  exact ⟨o₃, ho₃, hQ.trans hq₁₂ hq₂₃⟩

theorem lift_update {h : Heap κ} {r : Ref} {f : ObjectRecord κ → ObjectRecord κ}
    (hf : ∀ o, h[r]? = some o → Q o (f o)) : h.Lift Q (h.update r f) := fun r' o ho => by
  by_cases hr : r = r'
  · subst hr
    exact ⟨f o, Heap.getElem?_update_self ho f, hf o ho⟩
  · exact ⟨o, (Heap.getElem?_update_of_ne hr f).trans ho, hQ.refl o⟩

theorem lift_keptAt (r : Ref) : Heap.KeptAt r (Heap.Lift Q) where
  refl := hQ.lift_refl
  trans := hQ.lift_trans
  define h key d := by
    rcases Heap.define_snd h r key d with he | ⟨o, p, ho, hp, he⟩
    · rw [he]
      exact hQ.lift_refl h
    · rw [he]
      refine hQ.lift_update fun o' ho' => ?_
      cases ho.symm.trans ho'
      exact hQ.insert hp
  delete h key := by
    rcases Heap.delete_snd h r key with he | ⟨o, p, ho, hp, hc, he⟩
    · rw [he]
      exact hQ.lift_refl h
    · rw [he]
      refine hQ.lift_update fun o' ho' => ?_
      cases ho.symm.trans ho'
      exact hQ.erase hp hc

/-- **A relation that the record of every object respects evolves, whatever lengths are given.** -/
theorem heap (S : Value → Prop) : Heap.Evolution S (Heap.Lift Q) :=
  Heap.Writes.evolution {
    extend := fun he r o ho => ⟨o, he r o ho, hQ.refl o⟩
    trans := hQ.lift_trans
    close := fun _ _ => hQ.lift_update fun o _ => hQ.close o
    delete := fun h r key => (hQ.lift_keptAt r).delete h key
    define := fun {h r key d} _ => (hQ.lift_keptAt r).define h key d
    element := fun h r {index key} _ d => (hQ.lift_keptAt r).defineElement h index key d
    length := fun {h r former length} d _ _ => (hQ.lift_keptAt r).setLength h former length d }

end ObjectRecord.Evolution

end Es5
