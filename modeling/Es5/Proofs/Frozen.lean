import Es5.Proofs.Integrity

/-!
# Frozen objects

An object counts as frozen exactly if nothing can change it: no run without direct edits changes
whether it is extensible, its keys or its properties. Where it is not frozen, one operation
changes it.

* `ObjectRecord.Frozen`: closed, with permanent properties that are accessors or read-only.
* `ObjectRecord.SameProperties`: what a script can tell of two records of one object.
* `ObjectRecord.LengthCovers`: every own index of an array is below its length.
* **`Eval.isFrozen_iff`**: the test for frozen objects is exact.
-/

namespace Es5

variable {σ : Type}

namespace ObjectRecord

variable {κ : Type} {o o' : ObjectRecord κ}

/-- Closed, with permanent properties that are accessors or read-only. -/
def Frozen (o : ObjectRecord κ) : Prop :=
  o.extensible = false ∧
    ∀ key p, o.own? key = some p → p.writable = false ∧ p.configurable = false

/-- The same keys with the same properties, and extensible alike. -/
structure SameProperties (o o' : ObjectRecord κ) : Prop where
  extensible : o'.extensible = o.extensible
  keys : o'.properties.keys = o.properties.keys
  own : ∀ key, o'.own? key = o.own? key

/-- The length of an array is a data property above every own index. -/
def LengthCovers (o : ObjectRecord κ) : Prop :=
  o.kind = .array → ∃ x w e c, o.own? "length" = some (.data (.number x) w e c) ∧
    o.IndicesBelow x.clampUint32

theorem SameProperties.refl (o : ObjectRecord κ) : o.SameProperties o :=
  ⟨rfl, rfl, fun _ => rfl⟩

theorem SameProperties.trans {o₁ o₂ o₃ : ObjectRecord κ} (h₁₂ : o₁.SameProperties o₂)
    (h₂₃ : o₂.SameProperties o₃) : o₁.SameProperties o₃ :=
  ⟨h₂₃.extensible.trans h₁₂.extensible, h₂₃.keys.trans h₁₂.keys,
    fun key => (h₂₃.own key).trans (h₁₂.own key)⟩

theorem SameProperties.frozen (h : o.SameProperties o') (ho : o.Frozen) : o'.Frozen :=
  ⟨h.extensible.trans ho.1, fun key p hp => ho.2 key p ((h.own key).symm.trans hp)⟩

end ObjectRecord

/-! ## Frozen objects do not change -/

/-- No definition and no deletion changes a frozen object. -/
theorem ObjectRecord.frozen_evolution {κ : Type} :
    ObjectRecord.Evolution fun o o' : ObjectRecord κ => o.Frozen → o.SameProperties o' where
  refl o _ := SameProperties.refl o
  trans h₁₂ h₂₃ h := (h₁₂ h).trans (h₂₃ ((h₁₂ h).frozen h))
  close o h := ⟨h.1.symm, rfl, fun _ => rfl⟩
  insert {o key d q} hq h := by
    cases hp : o.own? key with
    | none =>
      rw [hp, Descriptor.applyTo?, if_neg (by simp [h.1])] at hq
      cases hq
    | some p =>
      obtain ⟨hw, hc⟩ := h.2 key p hp
      rw [hp] at hq
      have hqp : q = p := Property.eq_of_admits (Property.admits_of_applyTo? hc hq) hw hc
      have hsame : o.insert key q = o := by
        rw [ObjectRecord.insert, hqp, Properties.insert_of_get? hp]
      rw [hsame]
      exact SameProperties.refl o
  erase {o key p} hp hc h := by
    rw [(h.2 key p hp).2] at hc
    cases hc

/-! ## Objects that are not frozen change -/

namespace Eval

variable {w : World (Behaviour σ) σ} {r : Ref} {o : ObjectRecord (Behaviour σ)} {key : String}

theorem isFrozen_iff_frozen (ho : w.heap[r]? = some o) :
    isFrozen (.object r) w = .ok true w ↔ o.Frozen := by
  have hkeys : w.heap.ownKeys (.object r) = o.properties.keys := by
    rw [Heap.ownKeys, Heap.record?, ho]
    rfl
  have hext : w.heap.isExtensible (.object r) = o.extensible := by
    rw [Heap.isExtensible, Heap.record?, ho]
    rfl
  have heq : isFrozen (.object r) w = .ok
      (!((w.heap.ownKeys (.object r)).any fun key =>
          ((w.heap.own? (.object r) key).map fun p => p.writable || p.configurable).getD false) &&
        !w.heap.isExtensible (.object r)) w := rfl
  rw [heq, hkeys, hext]
  simp only [Heap.own?_eq ho, EStateM.Result.ok.injEq, and_true, Bool.and_eq_true,
    Bool.not_eq_true', List.any_eq_false]
  constructor
  · rintro ⟨hall, he⟩
    refine ⟨he, fun key p hp => ?_⟩
    have hkey := hall key (ObjectRecord.mem_keys_of_own? hp)
    simpa [hp] using hkey
  · intro h
    refine ⟨fun key hkey => ?_, h.1⟩
    obtain ⟨p, hp⟩ := Properties.mem_keys_iff.mp hkey
    obtain ⟨hw, hc⟩ := h.2 key p hp
    have hown : o.own? key = some p := hp
    simp [hown, hw, hc]

theorem after_delete {p : Property} (ho : w.heap[r]? = some o) (hp : o.own? key = some p)
    (hc : p.configurable = true) : (after (delete (.object r) key false) w).heap =
      w.heap.update r (·.erase key) := by
  have hd : w.heap.delete r key = (true, w.heap.update r (·.erase key)) := by
    rcases Heap.delete_cases ho key with ⟨hn, -⟩ | ⟨q, hq, ⟨hc', -⟩ | ⟨-, he⟩⟩
    · rw [hp] at hn
      cases hn
    · cases hp.symm.trans hq
      rw [hc] at hc'
      cases hc'
    · exact he
  have hrun : after (delete (.object r) key false) w =
      { w with heap := (w.heap.delete r key).2 } := by
    simp only [after, delete, objectFor, change, bind, EStateM.bind, pure, EStateM.pure,
      Bool.and_false, if_false, Bool.false_eq_true]
  rw [hrun, hd]

/-- The definition that makes a permanent property read-only. -/
theorem define_readOnly {v : Value} {e : Bool} (ho : w.heap[r]? = some o)
    (hp : o.own? key = some (.data v true e false)) :
    w.heap.define r key { writable := some false } =
      (true, w.heap.update r (·.insert key (.data v false e false))) := by
  have happly : Descriptor.applyTo? { writable := some false } o.extensible (o.own? key) =
      some (.data v false e false) := by
    rw [hp, Descriptor.applyTo?_data]
    rfl
  rcases Heap.define_cases ho key { writable := some false } with ⟨hn, -⟩ | ⟨q, hq, he⟩
  · rw [happly] at hn
    cases hn
  · cases happly.symm.trans hq
    exact he

/-- A definition without a value is a plain one on an own key, if the length covers the indices. -/
theorem defineBy_of_own {κ : Type} (caller : Caller κ σ) {w : World κ σ} {o : ObjectRecord κ}
    {d : Descriptor} (ho : w.heap[r]? = some o) (hl : o.LengthCovers)
    (hkey : key ∈ o.properties.keys) (hd : d.value = none) :
    defineBy caller r key d w = change (·.define r key d) w := by
  rw [defineBy]
  split
  · rename_i hk
    have harray : o.kind = .array := by
      rw [Heap.kind?, Heap.record?, ho] at hk
      exact Option.some.inj hk
    obtain ⟨x, lw, le, lc, hlength, hbelow⟩ := hl harray
    rw [defineOnArray]
    split
    · rw [hd]
    · cases hi : arrayIndex? key with
      | none => rfl
      | some i =>
        -- The key of an element is below the length, so the length does not grow.
        have hlt : i < (w.heap.arrayLength r).1 := by
          rw [Heap.arrayLength_eq ho hlength]
          exact hbelow key hkey i hi
        simp only [change, Heap.defineElement_of_lt hlt]
  · rfl

/-- A writable property can be made read-only, if the length of an array covers its indices. -/
theorem after_define_readOnly {caller : Caller (Behaviour σ) σ} {v : Value} {e : Bool}
    (ho : w.heap[r]? = some o) (hl : o.LengthCovers)
    (hp : o.own? key = some (.data v true e false)) :
    (after (defineOwn caller (.object r) key { writable := some false } false) w).heap =
      w.heap.update r (·.insert key (.data v false e false)) := by
  rw [after, defineOwn_lenient, defineBy_of_own caller ho hl (ObjectRecord.mem_keys_of_own? hp) rfl]
  exact congrArg Prod.snd (define_readOnly ho hp)

section

variable (ho : w.heap[r]? = some o)
  (hall : ∀ (depth : Nat) (p : Program σ), p.Obeys Rule.noEdits depth w →
    ∃ o', (after (p.run (runBehaviour depth)) w).heap[r]? = some o' ∧ o.SameProperties o')

include ho hall

/-- What one operation leaves, if no run changes the object at `r`. -/
theorem sameProperties_of_once (op : Operation) (hop : op.isEdit = false)
    {f : ObjectRecord (Behaviour σ) → ObjectRecord (Behaviour σ)}
    (hf : (after (op.run .provided (runBehaviour 0)) w).heap = w.heap.update r f) :
    o.SameProperties (f o) := by
  have hobeys : (Program.once op).Obeys Rule.noEdits 0 w :=
    Program.obeys_once (by simp [Rule.noEdits, hop])
  obtain ⟨o', ho', hsame⟩ := hall 0 (Program.once op) hobeys
  rw [Program.after_once, hf, Heap.getElem?_update_self ho] at ho'
  cases ho'
  exact hsame

/-- An object that no run changes is not extensible: that could be prevented. -/
theorem extensible_of_unchanged : o.extensible = false :=
  (sameProperties_of_once ho hall (.preventExtensions (.object r)) rfl
    (f := fun o => { o with extensible := false }) rfl).extensible.symm

/-- Every property of an object that no run changes is permanent: it could be deleted. -/
theorem configurable_of_unchanged {p : Property} (hp : o.own? key = some p) :
    p.configurable = false := by
  cases hc : p.configurable with
  | false => rfl
  | true =>
    have hkeys := (sameProperties_of_once ho hall (.delete (.object r) key false) rfl
      (after_delete ho hp hc)).keys
    have hmem : key ∈ o.properties.keys := ObjectRecord.mem_keys_of_own? hp
    rw [ObjectRecord.erase, Properties.keys_erase] at hkeys
    have hlen := List.length_erase_of_mem hmem
    rw [hkeys] at hlen
    have hpos := List.length_pos_of_mem hmem
    omega

/-- No property of an object that no run changes is writable: it could be made read-only. -/
theorem writable_of_unchanged (hl : o.LengthCovers) {p : Property} (hp : o.own? key = some p) :
    p.writable = false := by
  have hc := configurable_of_unchanged ho hall hp
  cases p with
  | accessor => rfl
  | data v wr e c =>
    cases hc
    cases wr with
    | false => rfl
    | true =>
      have hown := (sameProperties_of_once ho hall
        (.define (.object r) key { writable := some false } false) rfl
        (after_define_readOnly ho hl hp)).own key
      rw [ObjectRecord.own?_insert_self, hp] at hown
      cases hown

end

/--
**The test for frozen objects is exact.** It accepts an object exactly if no run without direct
edits changes whether it is extensible, its keys or its properties, whichever operations the run
does on whichever objects and whatever functions are called meanwhile. The length of an array is
required to cover its indices.
-/
theorem isFrozen_iff (ho : w.heap[r]? = some o) (hl : o.LengthCovers) :
    isFrozen (.object r) w = .ok true w ↔
      ∀ (depth : Nat) (p : Program σ), p.Obeys Rule.noEdits depth w →
        ∃ o', (after (p.run (runBehaviour depth)) w).heap[r]? = some o' ∧
          o.SameProperties o' := by
  rw [isFrozen_iff_frozen ho]
  constructor
  · intro hf depth p hp
    obtain ⟨o', ho', hsame⟩ :=
      hp.along (ObjectRecord.frozen_evolution.heap _) Rule.noEdits_ensures r o ho
    exact ⟨o', ho', hsame hf⟩
  · intro hall
    refine ⟨extensible_of_unchanged ho hall, fun key p hp => ?_⟩
    exact ⟨writable_of_unchanged ho hall hl hp, configurable_of_unchanged ho hall hp⟩

/-- An array of one read-only element, with a writable length. -/
theorem isFrozen_iff_array :
    let o : ObjectRecord (Behaviour Unit) :=
      { kind := .array, extensible := false,
        properties := [("0", .fixed .null true),
          ("length", .data (.number (.ofNat 1)) true false false)] }
    let w : World (Behaviour Unit) Unit := ⟨#[o], ()⟩
    o.LengthCovers ∧ (isFrozen (.object 0) w = .ok true w ↔
      ∀ (depth : Nat) (p : Program Unit), p.Obeys Rule.noEdits depth w →
        ∃ o', (after (p.run (runBehaviour depth)) w).heap[0]? = some o' ∧
          o.SameProperties o') := by
  intro o w
  have hbelow : ∀ key ∈ o.properties.keys, ∀ i, arrayIndex? key = some i → i < 1 := by
    intro key hkey i hi
    have hall : ∀ key ∈ o.properties.keys, (arrayIndex? key).all (· < 1) := by decide +kernel
    simpa [hi] using hall key hkey
  have hl : o.LengthCovers := fun _ => by
    refine ⟨.ofNat 1, true, false, false, rfl, ?_⟩
    rw [Double.clampUint32_ofNat (by decide +kernel)]
    exact hbelow
  exact ⟨hl, isFrozen_iff rfl hl⟩

end Eval

end Es5
