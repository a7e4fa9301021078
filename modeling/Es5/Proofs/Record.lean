import Es5.Object.Heap

/-!
# Records under definitions and deletions

What storing and removing a property does to the other properties of an object, and what a
definition and a deletion do to a heap.

* `Properties.get?_insert_of_ne`, `Properties.keys_insert`, …: keys and properties in order.
* `ObjectRecord.IndicesBelow`: the own indices of an array are below a bound.
* `Heap.getElem?_update`: one object changes.
* `Heap.define_cases`, `Heap.delete_cases`: definition and deletion on the record of an object.
* `Heap.define_snd`, `Heap.delete_snd`: the heap after them.
-/

namespace Es5

namespace Properties

variable {ps : Properties} {key key' : String} {p : Property}

theorem get?_cons (k : String) (q : Property) (rest : Properties) (key : String) :
    get? ((k, q) :: rest) key = if k = key then some q else get? rest key := by
  rw [get?, List.lookup_cons]
  by_cases h : k = key
  · simp [h]
  · have : (key == k) = false := by simpa using Ne.symm h
    simp [h, this, get?]

theorem get?_eq_none_iff : ps.get? key = none ↔ key ∉ ps.keys := by
  induction ps with
  | nil => simp [get?, keys]
  | cons x rest ih =>
    obtain ⟨k, q⟩ := x
    rw [get?_cons]
    by_cases h : k = key
    · simp [h, keys]
    · simp only [h, if_false, ih, keys, List.map_cons, List.mem_cons]
      exact ⟨fun hr hk => hk.elim (fun e => h e.symm) hr, fun hk hr => hk (Or.inr hr)⟩

theorem mem_keys_iff : key ∈ ps.keys ↔ ∃ p, ps.get? key = some p := by
  cases h : ps.get? key with
  | none => simpa using get?_eq_none_iff.mp h
  | some p =>
    have hmem : key ∈ ps.keys := by
      by_cases hm : key ∈ ps.keys
      · exact hm
      · rw [get?_eq_none_iff.mpr hm] at h
        cases h
    simpa using hmem

@[simp]
theorem get?_insert_self : (ps.insert key p).get? key = some p := by
  induction ps with
  | nil => simp [insert, get?_cons]
  | cons x rest ih =>
    obtain ⟨k, q⟩ := x
    rw [insert]
    by_cases hk : k = key
    · rw [if_pos hk, get?_cons, if_pos hk]
    · rw [if_neg hk, get?_cons, if_neg hk, ih]

theorem get?_insert_of_ne (h : key' ≠ key) : (ps.insert key p).get? key' = ps.get? key' := by
  induction ps with
  | nil => rw [insert, get?_cons, if_neg (Ne.symm h)]
  | cons x rest ih =>
    obtain ⟨k, q⟩ := x
    rw [insert]
    by_cases hk : k = key
    · have hk' : k ≠ key' := fun e => h (e.symm.trans hk)
      rw [if_pos hk, get?_cons, get?_cons, if_neg hk', if_neg hk']
    · rw [if_neg hk, get?_cons, get?_cons, ih]

theorem insert_of_get? (h : ps.get? key = some p) : ps.insert key p = ps := by
  induction ps with
  | nil => cases h
  | cons x rest ih =>
    obtain ⟨k, q⟩ := x
    rw [get?_cons] at h
    rw [insert]
    by_cases hk : k = key
    · rw [if_pos hk] at h ⊢
      cases h
      rfl
    · rw [if_neg hk] at h ⊢
      rw [ih h]

theorem mem_keys_insert : key' ∈ (ps.insert key p).keys ↔ key' = key ∨ key' ∈ ps.keys := by
  by_cases h : key' = key
  · simp [mem_keys_iff, h]
  · simp [mem_keys_iff, h, get?_insert_of_ne]

theorem get?_erase_of_ne (h : key' ≠ key) : (ps.erase key).get? key' = ps.get? key' := by
  induction ps with
  | nil => rfl
  | cons x rest ih =>
    obtain ⟨k, q⟩ := x
    rw [erase]
    by_cases hk : k = key
    · have hk' : k ≠ key' := fun e => h (e.symm.trans hk)
      rw [if_pos hk, get?_cons, if_neg hk']
    · rw [if_neg hk, get?_cons, get?_cons, ih]

theorem mem_of_get? (h : ps.get? key = some p) : (key, p) ∈ ps := by
  induction ps with
  | nil => cases h
  | cons x rest ih =>
    obtain ⟨k, q⟩ := x
    rw [get?_cons] at h
    by_cases hk : k = key
    · rw [if_pos hk] at h
      cases h
      rw [hk]
      exact List.mem_cons_self
    · rw [if_neg hk] at h
      exact List.mem_cons_of_mem _ (ih h)

/-- An insertion replaces at most the entry that is found under the key. -/
theorem mem_insert_or {x : String × Property} (h : x ∈ ps) (key : String) (p : Property) :
    x ∈ ps.insert key p ∨ ps.get? key = some x.2 ∧ x.1 = key := by
  induction ps with
  | nil => cases h
  | cons y rest ih =>
    obtain ⟨k, q⟩ := y
    rw [insert, get?_cons]
    by_cases hk : k = key
    · rw [if_pos hk, if_pos hk]
      rcases List.mem_cons.mp h with rfl | hmem
      · exact Or.inr ⟨rfl, hk⟩
      · exact Or.inl (List.mem_cons_of_mem _ hmem)
    · rw [if_neg hk, if_neg hk]
      rcases List.mem_cons.mp h with rfl | hmem
      · exact Or.inl List.mem_cons_self
      · exact (ih hmem).imp_left (List.mem_cons_of_mem _)

theorem mem_of_mem_insert {x : String × Property} (h : x ∈ ps.insert key p) :
    x ∈ ps ∨ x = (key, p) := by
  induction ps with
  | nil => exact Or.inr (List.mem_singleton.mp h)
  | cons y rest ih =>
    obtain ⟨k, q⟩ := y
    rw [insert] at h
    by_cases hk : k = key
    · rw [if_pos hk, hk] at h
      rcases List.mem_cons.mp h with rfl | hmem
      · exact Or.inr rfl
      · exact Or.inl (List.mem_cons_of_mem _ hmem)
    · rw [if_neg hk] at h
      rcases List.mem_cons.mp h with rfl | hmem
      · exact Or.inl List.mem_cons_self
      · exact (ih hmem).imp_left (List.mem_cons_of_mem _)

/-- A removal takes at most the entry that is found under the key. -/
theorem mem_erase_or {x : String × Property} (h : x ∈ ps) (key : String) :
    x ∈ ps.erase key ∨ ps.get? key = some x.2 := by
  induction ps with
  | nil => cases h
  | cons y rest ih =>
    obtain ⟨k, q⟩ := y
    rw [erase, get?_cons]
    by_cases hk : k = key
    · rw [if_pos hk, if_pos hk]
      rcases List.mem_cons.mp h with rfl | hmem
      · exact Or.inr rfl
      · exact Or.inl hmem
    · rw [if_neg hk, if_neg hk]
      rcases List.mem_cons.mp h with rfl | hmem
      · exact Or.inl List.mem_cons_self
      · exact (ih hmem).imp_left (List.mem_cons_of_mem _)

theorem mem_of_mem_erase {x : String × Property} (h : x ∈ ps.erase key) : x ∈ ps := by
  induction ps with
  | nil => cases h
  | cons y rest ih =>
    obtain ⟨k, q⟩ := y
    rw [erase] at h
    by_cases hk : k = key
    · rw [if_pos hk] at h
      exact List.mem_cons_of_mem _ h
    · rw [if_neg hk] at h
      rcases List.mem_cons.mp h with rfl | hmem
      · exact List.mem_cons_self
      · exact List.mem_cons_of_mem _ (ih hmem)

theorem keys_insert (ps : Properties) (key : String) (p : Property) :
    (ps.insert key p).keys = if key ∈ ps.keys then ps.keys else ps.keys ++ [key] := by
  induction ps with
  | nil => rfl
  | cons x rest ih =>
    obtain ⟨k, q⟩ := x
    rw [insert]
    by_cases hk : k = key
    · simp [keys, hk]
    · rw [if_neg hk]
      show k :: (insert rest key p).keys =
        if key ∈ k :: keys rest then k :: keys rest else k :: keys rest ++ [key]
      rw [ih]
      by_cases hmem : key ∈ keys rest
      · rw [if_pos hmem, if_pos (List.mem_cons_of_mem k hmem)]
      · have hnot : key ∉ k :: keys rest := fun hcons =>
          (List.mem_cons.mp hcons).elim (Ne.symm hk) hmem
        rw [if_neg hmem, if_neg hnot, List.cons_append]

@[simp]
theorem keys_erase : (ps.erase key).keys = ps.keys.erase key := by
  induction ps with
  | nil => rfl
  | cons x rest ih =>
    obtain ⟨k, q⟩ := x
    have hcons : keys ((k, q) :: rest) = k :: keys rest := rfl
    rw [erase, hcons]
    by_cases hk : k = key
    · rw [if_pos hk, hk, List.erase_cons_head]
    · rw [if_neg hk, List.erase_cons_tail (by simpa using hk), ← ih]
      rfl

end Properties

namespace ObjectRecord

variable {κ : Type} {o : ObjectRecord κ} {key key' : String} {p : Property}

@[simp]
theorem properties_insert : (o.insert key p).properties = o.properties.insert key p := rfl

@[simp]
theorem properties_erase : (o.erase key).properties = o.properties.erase key := rfl

@[simp]
theorem own?_insert_self : (o.insert key p).own? key = some p := Properties.get?_insert_self

theorem own?_insert_of_ne (h : key' ≠ key) : (o.insert key p).own? key' = o.own? key' :=
  Properties.get?_insert_of_ne h

theorem own?_erase_of_ne (h : key' ≠ key) : (o.erase key).own? key' = o.own? key' :=
  Properties.get?_erase_of_ne h

theorem own?_eq_none_iff : o.own? key = none ↔ key ∉ o.properties.keys :=
  Properties.get?_eq_none_iff

theorem mem_keys_of_own? (h : o.own? key = some p) : key ∈ o.properties.keys :=
  Properties.mem_keys_iff.mpr ⟨p, h⟩

/-- Every own index is below `n`. -/
def IndicesBelow (o : ObjectRecord κ) (n : Nat) : Prop :=
  ∀ key ∈ o.properties.keys, ∀ i, arrayIndex? key = some i → i < n

theorem IndicesBelow.mono {m n : Nat} (h : o.IndicesBelow m) (hmn : m ≤ n) : o.IndicesBelow n :=
  fun key hkey i hi => Nat.lt_of_lt_of_le (h key hkey i hi) hmn

theorem IndicesBelow.erase {n : Nat} (h : o.IndicesBelow n) (key : String) :
    (o.erase key).IndicesBelow n := fun key' hkey' i hi => by
  rw [properties_erase, Properties.keys_erase] at hkey'
  exact h key' (List.mem_of_mem_erase hkey') i hi

theorem indicesBelow_insert {n : Nat} : (o.insert key p).IndicesBelow n ↔
    o.IndicesBelow n ∧ ∀ i, arrayIndex? key = some i → i < n := by
  refine ⟨fun h => ⟨fun key' hkey' i hi => ?_, fun i hi => ?_⟩, fun h key' hkey' i hi => ?_⟩
  · exact h key' (Properties.mem_keys_insert.mpr (Or.inr hkey')) i hi
  · exact h key (Properties.mem_keys_insert.mpr (Or.inl rfl)) i hi
  · rcases Properties.mem_keys_insert.mp hkey' with rfl | hmem
    · exact h.2 i hi
    · exact h.1 key' hmem i hi

end ObjectRecord

namespace Heap

variable {κ : Type} {h : Heap κ} {r r' : Ref} {o : ObjectRecord κ} {key : String}

theorem getElem?_update (h : Heap κ) (r r' : Ref) (f : ObjectRecord κ → ObjectRecord κ) :
    (h.update r f)[r']? = if r = r' then h[r']?.map f else h[r']? := by
  rw [update, Array.getElem?_modify]

theorem getElem?_update_self (ho : h[r]? = some o) (f : ObjectRecord κ → ObjectRecord κ) :
    (h.update r f)[r]? = some (f o) := by
  rw [getElem?_update, if_pos rfl, ho, Option.map_some]

theorem getElem?_update_of_ne (hr : r ≠ r') (f : ObjectRecord κ → ObjectRecord κ) :
    (h.update r f)[r']? = h[r']? := by rw [getElem?_update, if_neg hr]

theorem own?_eq (ho : h[r]? = some o) : h.own? (.object r) key = o.own? key := by
  rw [own?, record?, ho, Option.bind_some]

/-- A definition is refused, or stores one property. -/
theorem define_cases (ho : h[r]? = some o) (key : String) (d : Descriptor) :
    (d.applyTo? o.extensible (o.own? key) = none ∧ h.define r key d = (false, h)) ∨
      ∃ p, d.applyTo? o.extensible (o.own? key) = some p ∧
        h.define r key d = (true, h.update r (·.insert key p)) := by
  cases hp : d.applyTo? o.extensible (o.own? key) with
  | none => exact Or.inl ⟨rfl, by simp only [define, ho, hp]⟩
  | some p => exact Or.inr ⟨p, rfl, by simp only [define, ho, hp]⟩

/-- A deletion has nothing to do, or is refused, or removes one configurable property. -/
theorem delete_cases (ho : h[r]? = some o) (key : String) :
    (o.own? key = none ∧ h.delete r key = (true, h)) ∨
      ∃ p, o.own? key = some p ∧
        ((p.configurable = false ∧ h.delete r key = (false, h)) ∨
          (p.configurable = true ∧ h.delete r key = (true, h.update r (·.erase key)))) := by
  rw [delete, own?_eq ho]
  cases hp : o.own? key with
  | none => exact Or.inl ⟨rfl, rfl⟩
  | some p =>
    refine Or.inr ⟨p, rfl, ?_⟩
    cases hc : p.configurable with
    | false => exact Or.inl ⟨rfl, by simp [hc]⟩
    | true => exact Or.inr ⟨rfl, by simp [hc]⟩

theorem define_of_none (ho : h[r]? = none) (d : Descriptor) :
    h.define r key d = (false, h) := by rw [define, ho]

theorem delete_of_none (ho : h[r]? = none) : h.delete r key = (true, h) := by
  rw [delete, own?, record?, ho, Option.bind_none]

/-- The heap after a definition: as it was, or with one property stored. -/
theorem define_snd (h : Heap κ) (r : Ref) (key : String) (d : Descriptor) :
    (h.define r key d).2 = h ∨ ∃ o p, h[r]? = some o ∧
      d.applyTo? o.extensible (o.own? key) = some p ∧
      (h.define r key d).2 = h.update r (·.insert key p) := by
  cases ho : h[r]? with
  | none => exact Or.inl (by rw [define_of_none ho])
  | some o =>
    rcases define_cases ho key d with ⟨-, he⟩ | ⟨p, hp, he⟩
    · exact Or.inl (by rw [he])
    · exact Or.inr ⟨o, p, rfl, hp, by rw [he]⟩

/-- The heap after a deletion: as it was, or with one configurable property removed. -/
theorem delete_snd (h : Heap κ) (r : Ref) (key : String) :
    (h.delete r key).2 = h ∨ ∃ o p, h[r]? = some o ∧ o.own? key = some p ∧
      p.configurable = true ∧ (h.delete r key).2 = h.update r (·.erase key) := by
  cases ho : h[r]? with
  | none => exact Or.inl (by rw [delete_of_none ho])
  | some o =>
    rcases delete_cases ho key with ⟨-, he⟩ | ⟨p, hp, ⟨-, he⟩ | ⟨hc, he⟩⟩
    · exact Or.inl (by rw [he])
    · exact Or.inl (by rw [he])
    · exact Or.inr ⟨o, p, rfl, hp, hc, by rw [he]⟩

theorem arrayLength_eq {x : Double} {w e c : Bool} (ho : h[r]? = some o)
    (hl : o.own? "length" = some (.data (.number x) w e c)) :
    h.arrayLength r = (x.clampUint32, w) := by rw [arrayLength, own?_eq ho, hl]

/-- Below the length, an element is defined as any property. -/
theorem defineElement_of_lt {index : Nat} (hi : index < (h.arrayLength r).1) (d : Descriptor) :
    h.defineElement r index key d = h.define r key d := by
  have hlt : ¬(h.arrayLength r).1 ≤ index := by omega
  rw [defineElement]
  simp only [hlt, decide_false, Bool.false_and, if_false]
  rcases h.define r key d with ⟨_ | _, h'⟩ <;> rfl

end Heap

end Es5
