import Es5.Proofs.IndexKey
import Es5.Proofs.Permanent
import Es5.Proofs.Writes

/-!
# Lengths of arrays

The length of an array is a permanent property. The rules of arrays keep it one, and each of them
leaves it above all indices if it was above them before. A length that is defined after code ran
may be compared with one that is not the present length any more.

* `ObjectRecord.LengthIs`, `ObjectRecord.IsCovered`: the length, and that all indices are below it.
* `Heap.defineElement_cases`, `Heap.setLength_cases`: the rules of arrays on the record of one.
* `Heap.deleteElements_spec`: the deletion of elements from the end up to one that stays.
* **`Heap.keepsLength_writes`**: every array keeps a length that covers its indices.
-/

namespace Es5

variable {κ : Type}

/-! ## The property that holds a length -/

/-- The property that holds a length. -/
def Property.length (n : Nat) (writable : Bool) : Property :=
  .data (Heap.lengthValue n) writable false false

theorem lengthValue_injective {m n : Nat} (hm : m ≤ maxLength) (hn : n ≤ maxLength)
    (h : Heap.lengthValue m = Heap.lengthValue n) : m = n := by
  have hx : Double.ofNat m = Double.ofNat n := by
    injection h
  rw [← Double.clampUint32_ofNat hm, hx, Double.clampUint32_ofNat hn]

namespace Descriptor

/-- Whether a descriptor may give another value to a length that is writable or not. -/
def MayResize (d : Descriptor) (writable : Bool) : Prop :=
  d.configurable ≠ some true ∧ d.enumerable ≠ some true ∧ writable = true

variable {d : Descriptor} {m n : Nat} {w : Bool}

theorem permittedOn_length (hm : m ≤ maxLength) (hn : n ≤ maxLength)
    (hv : d.value = some (Heap.lengthValue m)) : d.permittedOn (.length n w) = true ↔
      d.configurable ≠ some true ∧ d.enumerable ≠ some true ∧
        (w = true ∨ d.writable ≠ some true ∧ m = n) := by
  have hd : d.isData = true := by simp [isData, hv]
  have hs : d.switches (.length n w) = false := by
    simp [switches, hd, Property.length, Property.isData]
  have hg : ¬d.isGeneric = true := by simp [isGeneric, hd]
  have hvalue : fieldWithin d.value (some (Heap.lengthValue n)) = true ↔ m = n := by
    rw [hv]
    refine ⟨fun h => lengthValue_injective hm hn (getD_of_fieldWithin h), fun h => ?_⟩
    rw [h, fieldWithin, beq_self_eq_true, Bool.or_true]
  rw [permittedOn_permanent rfl]
  simp only [Property.length, Property.enumerable, fieldWithin_false] at hs ⊢
  simp only [hg, Bool.false_eq_true, false_or, hs, true_and, keepsFixed, Bool.or_eq_true,
    Bool.and_eq_true, bne_iff_ne, hvalue]

end Descriptor

/-! ## Records of arrays -/

namespace ObjectRecord

/-- An array whose length is `n`. -/
structure LengthIs (o : ObjectRecord κ) (n : Nat) (writable : Bool) : Prop where
  kind : o.kind = .array
  own : o.own? "length" = some (.length n writable)
  le : n ≤ maxLength

/-- An array whose length is above all its indices. -/
def IsCovered (o : ObjectRecord κ) : Prop :=
  ∃ n writable, o.LengthIs n writable ∧ o.IndicesBelow n

/-- The own indices in order of creation of their keys. -/
def indices (o : ObjectRecord κ) : List Nat := o.properties.keys.filterMap arrayIndex?

variable {o : ObjectRecord κ} {m n : Nat} {w w' : Bool} {key : String} {p : Property}

theorem mem_indices {i : Nat} :
    i ∈ o.indices ↔ ∃ key ∈ o.properties.keys, arrayIndex? key = some i := List.mem_filterMap

theorem indicesBelow_iff : o.IndicesBelow n ↔ ∀ i ∈ o.indices, i < n := by
  refine ⟨fun h i hi => ?_, fun h key hkey i hi => h i (mem_indices.mpr ⟨key, hkey, hi⟩)⟩
  obtain ⟨key, hkey, hk⟩ := mem_indices.mp hi
  exact h key hkey i hk

/-- Erasing the key of an index erases the index. -/
theorem indices_erase {i : Nat} (hkey : arrayIndex? key = some i) :
    (o.erase key).indices = o.indices.erase i := by
  rw [indices, indices, ObjectRecord.erase, Properties.keys_erase]
  induction o.properties.keys with
  | nil => rfl
  | cons k rest ih =>
    by_cases hk : k = key
    · rw [hk, List.erase_cons_head, List.filterMap_cons_some hkey, List.erase_cons_head]
    · rw [List.erase_cons_tail (by simpa using hk)]
      cases hj : arrayIndex? k with
      | none => rw [List.filterMap_cons_none hj, List.filterMap_cons_none hj, ih]
      | some j =>
        have hne : j ≠ i := by
          rintro rfl
          rw [(arrayIndex?_eq_some_iff.mp hj).2, (arrayIndex?_eq_some_iff.mp hkey).2] at hk
          exact hk rfl
        rw [List.filterMap_cons_some hj, List.filterMap_cons_some hj, ih,
          List.erase_cons_tail (by simpa using hne)]

theorem LengthIs.eq (h : o.LengthIs m w) (h' : o.LengthIs n w') : m = n ∧ w = w' := by
  have hp : Property.length m w = Property.length n w' :=
    Option.some.inj (h.own.symm.trans h'.own)
  injection hp with hv hw
  exact ⟨lengthValue_injective h.le h'.le hv, hw⟩

theorem LengthIs.isCovered_iff (h : o.LengthIs n w) : o.IsCovered ↔ o.IndicesBelow n := by
  refine ⟨fun ⟨m, w', h', hbelow⟩ => ?_, fun hbelow => ⟨n, w, h, hbelow⟩⟩
  rw [(h.eq h').1]
  exact hbelow

theorem LengthIs.close (h : o.LengthIs n w) :
    ({ o with extensible := false } : ObjectRecord κ).LengthIs n w := ⟨h.kind, h.own, h.le⟩

theorem LengthIs.insert_of_ne (h : o.LengthIs n w) (hkey : key ≠ "length") :
    (o.insert key p).LengthIs n w :=
  ⟨h.kind, (own?_insert_of_ne (Ne.symm hkey)).trans h.own, h.le⟩

theorem LengthIs.insert (h : o.LengthIs n w) (hm : m ≤ maxLength) (w' : Bool) :
    (o.insert "length" (.length m w')).LengthIs m w' := ⟨h.kind, own?_insert_self, hm⟩

/-- Replacing the length leaves the indices. -/
theorem indicesBelow_insert_length : (o.insert "length" p).IndicesBelow n ↔ o.IndicesBelow n := by
  rw [indicesBelow_insert]
  refine ⟨And.left, fun h => ⟨h, fun i hi => ?_⟩⟩
  rw [arrayIndex?_length] at hi
  cases hi

theorem LengthIs.erase (h : o.LengthIs n w) (hp : o.own? key = some p)
    (hc : p.configurable = true) : (o.erase key).LengthIs n w := by
  refine ⟨h.kind, ?_, h.le⟩
  rw [own?_erase_of_ne, h.own]
  rintro rfl
  cases h.own.symm.trans hp
  cases hc

/-- A definition of the length is refused, or replaces its value or makes it read-only. -/
theorem LengthIs.applyTo? (h : o.LengthIs n w) (d : Descriptor) :
    d.applyTo? o.extensible (o.own? "length") = if d.permittedOn (.length n w) then
      some (.data (d.value.getD (Heap.lengthValue n)) (d.writable.getD w) false false)
    else none := by
  rw [h.own]
  exact Descriptor.applyTo?_data ..

end ObjectRecord

/-! ## The rules of arrays -/

namespace Heap

variable {h : Heap κ} {r : Ref} {o : ObjectRecord κ} {m n : Nat} {w : Bool}

theorem arrayLength_of_lengthIs (ho : h[r]? = some o) (hl : o.LengthIs n w) :
    h.arrayLength r = (n, w) := by
  rw [arrayLength_eq ho hl.own, Double.clampUint32_ofNat hl.le]

/-- A definition that gives a length a value, where the property that holds it permits that. -/
theorem define_length (ho : h[r]? = some o) (hl : o.LengthIs n w) {d : Descriptor}
    (hv : d.value = some (lengthValue m)) : h.define r "length" d =
      if d.permittedOn (.length n w) then
        (true, h.update r (·.insert "length" (.length m (d.writable.getD w))))
      else (false, h) := by
  have happly := hl.applyTo? d
  rcases define_cases ho "length" d with ⟨hn, he⟩ | ⟨p, hp, he⟩
  · rw [hn] at happly
    split at happly
    · cases happly
    · rw [he, if_neg ‹_›]
  · rw [hp] at happly
    split at happly
    · rw [he, if_pos ‹_›, Option.some.inj happly, hv]
      rfl
    · cases happly

theorem define_length_of_mayResize (ho : h[r]? = some o) (hl : o.LengthIs n w)
    (hm : m ≤ maxLength) {d : Descriptor} (hv : d.value = some (lengthValue m))
    (hresize : d.MayResize w) : h.define r "length" d =
      (true, h.update r (·.insert "length" (.length m (d.writable.getD w)))) := by
  obtain ⟨hc, he, hw⟩ := hresize
  have hperm := (Descriptor.permittedOn_length hm hl.le hv).mpr ⟨hc, he, Or.inl hw⟩
  rw [define_length ho hl hv, if_pos hperm]

/-- A length that may not be given another value stays, be the definition refused or not. -/
theorem define_length_of_not_mayResize (ho : h[r]? = some o) (hl : o.LengthIs n w)
    (hm : m ≤ maxLength) {d : Descriptor} (hv : d.value = some (lengthValue m))
    (hresize : ¬d.MayResize w) : (h.define r "length" d).2[r]? = some o := by
  rw [define_length ho hl hv]
  split
  · rename_i hperm
    obtain ⟨hc, he, hw | ⟨hne, rfl⟩⟩ := (Descriptor.permittedOn_length hm hl.le hv).mp hperm
    · exact absurd ⟨hc, he, hw⟩ hresize
    · have hw : d.writable.getD w = w := by
        cases w with
        | true => exact absurd ⟨hc, he, rfl⟩ hresize
        | false => exact Descriptor.getD_of_fieldWithin (Descriptor.fieldWithin_false.mpr hne)
      rw [getElem?_update_self ho, hw, ObjectRecord.insert, Properties.insert_of_get? hl.own]
  · exact ho

/-- A definition that gives no value leaves the length, and does not make it writable. -/
theorem define_length_of_none (ho : h[r]? = some o) (hl : o.LengthIs n w) {d : Descriptor}
    (hv : d.value = none) : (h.define r "length" d).2[r]? = some o ∨ ∃ w', (w' = true → w = true) ∧
      (h.define r "length" d).2[r]? = some (o.insert "length" (.length n w')) := by
  rcases define_cases ho "length" d with ⟨-, he⟩ | ⟨p, hp, he⟩
  · exact Or.inl (by rw [he, ho])
  · have happly := hl.applyTo? d
    rw [hp, hv] at happly
    split at happly
    · rename_i hperm
      refine Or.inr ⟨d.writable.getD w, fun hw => ?_, ?_⟩
      · cases w with
        | true => rfl
        | false =>
          rw [Descriptor.getD_of_fieldWithin (Descriptor.permittedOn_readOnly hperm).2] at hw
          exact hw
      · rw [he, getElem?_update_self ho, Option.some.inj happly]
        rfl
    · cases happly

/-- An element is refused, or defined below the length, or defined above it with a new length. -/
theorem defineElement_cases (ho : h[r]? = some o) (hl : o.LengthIs n w) {i : Nat} {key : String}
    (hi : arrayIndex? key = some i) (d : Descriptor) :
    (h.defineElement r i key d).2[r]? = some o ∨
      (i < n ∧ ∃ p, (h.defineElement r i key d).2[r]? = some (o.insert key p)) ∨
      (n ≤ i ∧ w = true ∧ ∃ p, (h.defineElement r i key d).2[r]? =
        some ((o.insert key p).insert "length" (.length (i + 1) true))) := by
  have hlength := arrayLength_of_lengthIs ho hl
  by_cases hin : i < n
  · rw [defineElement_of_lt (by rw [hlength]; exact hin)]
    rcases define_cases ho key d with ⟨-, he⟩ | ⟨p, -, he⟩
    · exact Or.inl (by rw [he, ho])
    · exact Or.inr (Or.inl ⟨hin, p, by rw [he, getElem?_update_self ho]⟩)
  · have hni : n ≤ i := by omega
    cases w with
    | false => exact Or.inl (by rw [defineElement, hlength]; simpa [hni] using ho)
    | true =>
      rcases define_cases ho key d with ⟨-, he⟩ | ⟨p, -, he⟩
      · exact Or.inl (by rw [defineElement, hlength, he]; simpa [hni] using ho)
      · have hi' : i + 1 ≤ maxLength := (arrayIndex?_eq_some_iff.mp hi).1
        have ho₁ : (h.update r (·.insert key p))[r]? = some (o.insert key p) :=
          getElem?_update_self ho _
        have hl₁ : (o.insert key p).LengthIs n true :=
          hl.insert_of_ne (ne_length_of_arrayIndex? hi)
        have hresize : Descriptor.MayResize { value := some (lengthValue (i + 1)) } true :=
          ⟨by simp, by simp, rfl⟩
        refine Or.inr (Or.inr ⟨hni, rfl, p, ?_⟩)
        rw [defineElement, hlength, he]
        simp only [hni, Bool.not_true, Bool.and_false, Bool.false_eq_true, if_false, if_true]
        rw [define_length_of_mayResize ho₁ hl₁ hi' rfl hresize, getElem?_update_self ho₁]
        rfl

theorem indicesFrom_eq (ho : h[r]? = some o) (least : Nat) :
    h.indicesFrom r least =
      (o.indices.filter (least ≤ ·)).mergeSort (fun i j => j ≤ i) := by
  rw [indicesFrom, ownKeys, record?, ho]
  rfl

/--
The deletion of the elements from `least` on, by induction on those that are left. The first that
stays is above all that were not deleted yet.
-/
theorem deleteElements_spec {least : Nat} : ∀ (indices : List Nat) {h : Heap κ}
    {o : ObjectRecord κ}, h[r]? = some o → o.LengthIs n w →
    indices.Perm (o.indices.filter (least ≤ ·)) → indices.Pairwise (fun i j => j ≤ i) →
    ∃ o', (h.deleteElements r indices).2[r]? = some o' ∧ o'.LengthIs n w ∧
      match (h.deleteElements r indices).1 with
      | none => o'.IndicesBelow least
      | some i => i < maxLength ∧ o'.IndicesBelow (i + 1)
  | [], h, o, ho, hl, hperm, _ => by
    refine ⟨o, ho, hl, ObjectRecord.indicesBelow_iff.mpr fun i hi => ?_⟩
    have hnil : o.indices.filter (least ≤ ·) = [] := hperm.symm.eq_nil
    have hlt := List.filter_eq_nil_iff.mp hnil i hi
    simpa using hlt
  | i :: rest, h, o, ho, hl, hperm, hsorted => by
    obtain ⟨hmem, hleast⟩ := List.mem_filter.mp (hperm.subset List.mem_cons_self)
    obtain ⟨key, hkey, hi⟩ := ObjectRecord.mem_indices.mp hmem
    obtain ⟨hlt, rfl⟩ := arrayIndex?_eq_some_iff.mp hi
    rw [deleteElements]
    rcases delete_cases ho (indexKey i) with ⟨hn, -⟩ | ⟨p, hp, ⟨-, he⟩ | ⟨hc, he⟩⟩
    · exact absurd hkey (ObjectRecord.own?_eq_none_iff.mp hn)
    · -- The element stays, and everything after it is below.
      rw [he]
      refine ⟨o, ho, hl, hlt, ObjectRecord.indicesBelow_iff.mpr fun j hj => ?_⟩
      by_cases hj' : least ≤ j
      · have hj'' : j ∈ i :: rest :=
          hperm.symm.subset (List.mem_filter.mpr ⟨hj, by simpa using hj'⟩)
        rcases List.mem_cons.mp hj'' with rfl | hrest
        · omega
        · have := List.rel_of_pairwise_cons hsorted hrest
          omega
      · have hle : least ≤ i := by simpa using hleast
        omega
    · rw [he]
      have ho' : (h.update r (·.erase (indexKey i)))[r]? = some (o.erase (indexKey i)) :=
        getElem?_update_self ho _
      refine deleteElements_spec rest ho' (hl.erase hp hc) ?_ hsorted.of_cons
      rw [ObjectRecord.indices_erase hi, ← List.erase_filter]
      exact (List.cons_perm_iff_perm_erase.mp hperm).2

theorem pairwise_indicesFrom (h : Heap κ) (r : Ref) (least : Nat) :
    (h.indicesFrom r least).Pairwise fun i j => j ≤ i := by
  have hsorted : (h.indicesFrom r least).Pairwise fun i j => decide (j ≤ i) = true := by
    refine List.pairwise_mergeSort (fun i j k hij hjk => ?_) (fun i j => ?_) _
    · simp only [decide_eq_true_eq] at *
      omega
    · simp only [Bool.or_eq_true, decide_eq_true_eq]
      omega
  exact hsorted.imp fun hij => by simpa using hij

theorem deleteElements_indicesFrom (ho : h[r]? = some o) (hl : o.LengthIs n w) (least : Nat) :
    ∃ o', (h.deleteElements r (h.indicesFrom r least)).2[r]? = some o' ∧ o'.LengthIs n w ∧
      match (h.deleteElements r (h.indicesFrom r least)).1 with
      | none => o'.IndicesBelow least
      | some i => i < maxLength ∧ o'.IndicesBelow (i + 1) := by
  have hperm : (h.indicesFrom r least).Perm (o.indices.filter (least ≤ ·)) := by
    rw [indicesFrom_eq ho]
    exact List.mergeSort_perm ..
  exact deleteElements_spec _ ho hl hperm (pairwise_indicesFrom h r least)

/-- A truncation that is not refused ends with the length above all indices. -/
theorem truncate_of_mayResize (ho : h[r]? = some o) (hl : o.LengthIs n w) (hm : m ≤ maxLength)
    {d : Descriptor} (hv : d.value = some (lengthValue m)) (hresize : d.MayResize w) :
    ∃ o', (h.truncate r m d).2[r]? = some o' ∧ o'.IsCovered := by
  rw [truncate,
    define_length_of_mayResize (d := { d with writable := some true }) ho hl hm hv hresize]
  dsimp only [Option.getD_some]
  generalize hh : h.update r (·.insert "length" (.length m true)) = h₁
  have ho₁ : h₁[r]? = some (o.insert "length" (.length m true)) := by
    rw [← hh, getElem?_update_self ho]
  obtain ⟨o₂, ho₂, hl₂, hrest⟩ := deleteElements_indicesFrom ho₁ (hl.insert hm true) m
  rcases he : h₁.deleteElements r (h₁.indicesFrom r m) with ⟨_ | i, h₂⟩
  · -- Every element from `m` on is deleted, and the length may become read-only.
    rw [he] at ho₂ hrest
    dsimp only at ho₂ hrest ⊢
    split
    · exact ⟨o₂, ho₂, m, true, hl₂, hrest⟩
    · rcases define_length_of_none ho₂ hl₂ (d := { writable := some false }) rfl with
        he' | ⟨w', -, he'⟩
      · exact ⟨o₂, he', m, true, hl₂, hrest⟩
      · exact ⟨_, he', m, w', hl₂.insert hm w',
          ObjectRecord.indicesBelow_insert_length.mpr hrest⟩
  · -- The element at `i` stays, and the length is set just above it.
    rw [he] at ho₂ hrest
    dsimp only at ho₂ hrest ⊢
    obtain ⟨hi, hbelow⟩ := hrest
    have hi' : i + 1 ≤ maxLength := hi
    have hresize₂ : Descriptor.MayResize
        { value := some (lengthValue (i + 1)), writable := some (d.writable.getD true) } true :=
      ⟨by simp, by simp, rfl⟩
    rw [define_length_of_mayResize ho₂ hl₂ hi' rfl hresize₂]
    exact ⟨_, getElem?_update_self ho₂ _, i + 1, _, hl₂.insert hi' _,
      ObjectRecord.indicesBelow_insert_length.mpr hbelow⟩

theorem truncate_of_not_mayResize (ho : h[r]? = some o) (hl : o.LengthIs n w)
    (hm : m ≤ maxLength) {d : Descriptor} (hv : d.value = some (lengthValue m))
    (hresize : ¬d.MayResize w) : (h.truncate r m d).2 = h := by
  have hperm : ¬Descriptor.permittedOn { d with writable := some true } (.length n w) = true := by
    rw [Descriptor.permittedOn_length (d := { d with writable := some true }) hm hl.le hv]
    simpa [Descriptor.MayResize] using hresize
  rw [truncate, define_length (d := { d with writable := some true }) ho hl hv, if_neg hperm]

/--
The definition of a length leaves the record, or replaces its length, or truncates the array. What
decides between the last two is the length that was read before the new one was computed.
-/
theorem setLength_cases (ho : h[r]? = some o) (hl : o.LengthIs n w) (hm : m ≤ maxLength)
    (former : Nat × Bool) (d : Descriptor) :
    (¬(d.MayResize w ∧ (former.1 ≤ m ∨ former.2 = true)) ∧
        (h.setLength r former m d).2[r]? = some o) ∨
      (d.MayResize w ∧ former.1 ≤ m ∧ ∃ w', (h.setLength r former m d).2[r]? =
        some (o.insert "length" (.length m w'))) ∨
      (d.MayResize w ∧ ¬former.1 ≤ m ∧
        ∃ o', (h.setLength r former m d).2[r]? = some o' ∧ o'.IsCovered) := by
  rw [setLength]
  by_cases hresize : d.MayResize w
  · by_cases hle : former.1 ≤ m
    · refine Or.inr (Or.inl ⟨hresize, hle, d.writable.getD w, ?_⟩)
      have hvalue : Descriptor.MayResize { d with value := some (lengthValue m) } w := hresize
      rw [if_pos hle, define_length_of_mayResize ho hl hm rfl hvalue, getElem?_update_self ho]
    · rw [if_neg hle]
      cases hformer : former.2 with
      | false => exact Or.inl ⟨fun hr => hr.2.elim hle Bool.false_ne_true, ho⟩
      | true =>
        exact Or.inr (Or.inr ⟨hresize, hle, truncate_of_mayResize ho hl hm rfl hresize⟩)
  · have hvalue : ¬Descriptor.MayResize { d with value := some (lengthValue m) } w := hresize
    refine Or.inl ⟨fun hr => hresize hr.1, ?_⟩
    split
    · exact define_length_of_not_mayResize ho hl hm rfl hvalue
    · split
      · exact ho
      · rw [truncate_of_not_mayResize ho hl hm rfl hvalue, ho]

end Heap

/-! ## Arrays keep a length -/

/--
Every array keeps a length, which does not become writable again. The length of an array of `S`
stays above all indices.
-/
def Heap.KeepsLength (S : Value → Prop) (h h' : Heap κ) : Prop :=
  ∀ (r : Ref) (o : ObjectRecord κ) (n : Nat) (w : Bool), h[r]? = some o → o.LengthIs n w →
    ∃ o' n' w', h'[r]? = some o' ∧ o'.LengthIs n' w' ∧ (w' = true → w = true) ∧
      (S (.object r) → o.IndicesBelow n → o'.IndicesBelow n')

namespace Heap

variable {S : Value → Prop} {h h' : Heap κ} {r : Ref}

theorem keepsLength_extend (he : h.Extends h') : h.KeepsLength S h' :=
  fun r o n w ho hl => ⟨o, n, w, he r o ho, hl, id, fun _ => id⟩

/-- A change of one object, where that object is an array. -/
theorem keepsLength_of_at (hothers : ∀ r', r ≠ r' → h'[r']? = h[r']?)
    (hat : ∀ o n w, h[r]? = some o → o.LengthIs n w → ∃ o' n' w', h'[r]? = some o' ∧
      o'.LengthIs n' w' ∧ (w' = true → w = true) ∧
        (S (.object r) → o.IndicesBelow n → o'.IndicesBelow n')) :
    h.KeepsLength S h' := fun r' o n w ho hl => by
  by_cases hr : r = r'
  · subst hr
    exact hat o n w ho hl
  · exact ⟨o, n, w, (hothers r' hr).trans ho, hl, id, fun _ => id⟩

theorem keepsLength_delete (h : Heap κ) (r : Ref) (key : String) :
    h.KeepsLength S (h.delete r key).2 :=
  keepsLength_of_at ((keptAt_others r).delete h key) fun o n w ho hl => by
    rcases delete_cases ho key with ⟨-, he⟩ | ⟨p, hp, ⟨-, he⟩ | ⟨hc, he⟩⟩
    · exact ⟨o, n, w, by rw [he, ho], hl, id, fun _ => id⟩
    · exact ⟨o, n, w, by rw [he, ho], hl, id, fun _ => id⟩
    · exact ⟨o.erase key, n, w, by rw [he, getElem?_update_self ho], hl.erase hp hc, id,
        fun _ hbelow => hbelow.erase key⟩

theorem keepsLength_define {key : String} {d : Descriptor}
    (hd : h.kind? (.object r) = some .array →
      if key = "length" then d.value = none else arrayIndex? key = none) :
    h.KeepsLength S (h.define r key d).2 :=
  keepsLength_of_at ((keptAt_others r).define h key d) fun o n w ho hl => by
    have hd' := hd (by rw [kind?, record?, ho]; exact congrArg some hl.kind)
    by_cases hkey : key = "length"
    · subst hkey
      rw [if_pos rfl] at hd'
      rcases define_length_of_none ho hl hd' with he | ⟨w', hw, he⟩
      · exact ⟨o, n, w, he, hl, id, fun _ => id⟩
      · exact ⟨_, n, w', he, hl.insert hl.le w', hw,
          fun _ hbelow => ObjectRecord.indicesBelow_insert_length.mpr hbelow⟩
    · rw [if_neg hkey] at hd'
      rcases define_cases ho key d with ⟨-, he⟩ | ⟨p, -, he⟩
      · exact ⟨o, n, w, by rw [he, ho], hl, id, fun _ => id⟩
      · refine ⟨o.insert key p, n, w, by rw [he, getElem?_update_self ho], hl.insert_of_ne hkey, id,
          fun _ hbelow => ObjectRecord.indicesBelow_insert.mpr ⟨hbelow, fun i hi => ?_⟩⟩
        rw [hd'] at hi
        cases hi

theorem keepsLength_defineElement (h : Heap κ) (r : Ref) {i : Nat} {key : String}
    (hi : arrayIndex? key = some i) (d : Descriptor) :
    h.KeepsLength S (h.defineElement r i key d).2 :=
  keepsLength_of_at ((keptAt_others r).defineElement h i key d) fun o n w ho hl => by
    have hkey := ne_length_of_arrayIndex? hi
    have hinsert : ∀ (m : Nat) (p : Property), n ≤ m → i < m → o.IndicesBelow n →
        (o.insert key p).IndicesBelow m := fun m p hnm him hbelow => by
      refine ObjectRecord.indicesBelow_insert.mpr ⟨hbelow.mono hnm, fun j hj => ?_⟩
      cases hi.symm.trans hj
      exact him
    rcases defineElement_cases ho hl hi d with he | ⟨hin, p, he⟩ | ⟨hni, hw, p, he⟩
    · exact ⟨o, n, w, he, hl, id, fun _ => id⟩
    · exact ⟨_, n, w, he, hl.insert_of_ne hkey, id, fun _ => hinsert n p (Nat.le_refl n) hin⟩
    · have hi' : i + 1 ≤ maxLength := (arrayIndex?_eq_some_iff.mp hi).1
      exact ⟨_, i + 1, true, he, (hl.insert_of_ne hkey).insert hi' true, fun _ => hw,
        fun _ hbelow => ObjectRecord.indicesBelow_insert_length.mpr
          (hinsert (i + 1) p (by omega) (by omega) hbelow)⟩

theorem keepsLength_setLength {former : Nat × Bool} {m : Nat} (d : Descriptor)
    (hformer : S (.object r) → former = h.arrayLength r) (hm : m ≤ maxLength) :
    h.KeepsLength S (h.setLength r former m d).2 :=
  keepsLength_of_at ((keptAt_others r).setLength h former m d) fun o n w ho hl => by
    rcases setLength_cases ho hl hm former d with ⟨-, he⟩ | ⟨hresize, hle, w', he⟩ |
      ⟨hresize, -, o', he, n', w', hl', hbelow⟩
    · exact ⟨o, n, w, he, hl, id, fun _ => id⟩
    · refine ⟨_, m, w', he, hl.insert hm w', fun _ => hresize.2.2, fun hS hbelow => ?_⟩
      rw [hformer hS, arrayLength_of_lengthIs ho hl] at hle
      exact ObjectRecord.indicesBelow_insert_length.mpr (hbelow.mono hle)
    · exact ⟨o', n', w', he, hl', fun _ => hresize.2.2, fun _ _ => hbelow⟩

/-- **The rules by which properties are written keep the lengths of arrays.** -/
theorem keepsLength_writes (S : Value → Prop) : Heap.Writes S (@KeepsLength κ S) where
  extend := keepsLength_extend
  trans {h₁ h₂ h₃} h₁₂ h₂₃ r o n w ho hl := by
    obtain ⟨o₂, n₂, w₂, ho₂, hl₂, hw₂, hb₂⟩ := h₁₂ r o n w ho hl
    obtain ⟨o₃, n₃, w₃, ho₃, hl₃, hw₃, hb₃⟩ := h₂₃ r o₂ n₂ w₂ ho₂ hl₂
    exact ⟨o₃, n₃, w₃, ho₃, hl₃, fun h => hw₂ (hw₃ h), fun hS h => hb₃ hS (hb₂ hS h)⟩
  close h r := keepsLength_of_at (fun _ hr => getElem?_update_of_ne hr _) fun o n w ho hl =>
    ⟨_, n, w, getElem?_update_self ho _, hl.close, id, fun _ => id⟩
  delete := keepsLength_delete
  define := keepsLength_define
  element h r _ _ hkey d := keepsLength_defineElement h r hkey d
  length := keepsLength_setLength

end Heap

end Es5
