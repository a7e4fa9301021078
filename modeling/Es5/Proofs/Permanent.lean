import Es5.Object.Definition

/-!
# Permanent properties

A property that is not configurable is *permanent*: a definition may at most change the value of
a writable one and make it read-only.

* `Descriptor.applyTo?_data`, `Descriptor.applyTo?_accessor`: definitions over permanent properties.
* `Property.Admits`: the changes that a permanent property admits.
* **`Property.admits_of_applyTo?`**: a definition makes no other change.
-/

namespace Es5

/-! ## Definitions over permanent properties -/

namespace Descriptor

variable {α : Type} {d : Descriptor} {p q : Property} {extensible : Bool}

theorem fieldWithin_none [BEq α] {field : Option α} :
    fieldWithin field none = true ↔ field = none := by
  cases field <;> simp [fieldWithin]

theorem getD_of_fieldWithin [BEq α] [LawfulBEq α] {field : Option α} {a : α}
    (h : fieldWithin field (some a) = true) : field.getD a = a := by
  cases field with
  | none => rfl
  | some b => simpa [fieldWithin] using h

theorem fieldWithin_false {field : Option Bool} :
    fieldWithin field (some false) = true ↔ field ≠ some true := by
  rcases field with _ | _ | _ <;> decide

theorem isData_eq_false : d.isData = false ↔ d.value = none ∧ d.writable = none := by
  simp [isData]

theorem isAccessor_eq_false : d.isAccessor = false ↔ d.get = none ∧ d.set = none := by
  simp [isAccessor]

theorem isGeneric_iff : d.isGeneric = true ↔ d.isData = false ∧ d.isAccessor = false := by
  simp [isGeneric]

/-- A descriptor that asks for nothing is within every property. -/
theorem within_of_isEmpty (h : d.isEmpty = true) (p : Property) : d.within p = true := by
  simp only [isEmpty, Bool.and_eq_true, Option.isNone_iff_eq_none] at h
  obtain ⟨⟨hg, he⟩, hc⟩ := h
  obtain ⟨hd, ha⟩ := isGeneric_iff.mp hg
  obtain ⟨hv, hw⟩ := isData_eq_false.mp hd
  obtain ⟨hget, hset⟩ := isAccessor_eq_false.mp ha
  simp [within, fieldWithin, hv, hw, hget, hset, he, hc]

theorem applyTo?_some (d : Descriptor) (extensible : Bool) (p : Property) :
    d.applyTo? extensible (some p) =
      if d.within p then some p
      else if d.permittedOn p then some (d.update (if d.switches p then switchKind p else p))
      else none := by
  have hw : (d.isEmpty || d.within p) = d.within p := by
    cases h : d.isEmpty with
    | false => rfl
    | true => rw [within_of_isEmpty h, Bool.or_true]
  rw [applyTo?, hw]
  cases d.within p <;> cases d.permittedOn p <;> rfl

/-- What a change of a permanent property has to leave alone. -/
theorem permittedOn_permanent (hp : p.configurable = false) :
    d.permittedOn p = true ↔ d.configurable ≠ some true ∧
      fieldWithin d.enumerable (some p.enumerable) = true ∧
      (d.isGeneric = true ∨ d.switches p = false ∧ d.keepsFixed p = true) := by
  simp [permittedOn, hp, and_assoc]

theorem switches_of_isGeneric (h : d.isGeneric = true) : d.switches p = false := by
  simp [switches, h]

/-- A permanent read-only property admits no other value and no other writability. -/
theorem permittedOn_readOnly {v : Value} {e : Bool}
    (h : d.permittedOn (.data v false e false) = true) :
    fieldWithin d.value (some v) = true ∧ fieldWithin d.writable (some false) = true := by
  obtain ⟨-, -, hg | ⟨-, hk⟩⟩ := (permittedOn_permanent rfl).mp h
  · obtain ⟨hv, hw⟩ := isData_eq_false.mp (isGeneric_iff.mp hg).1
    simp [fieldWithin, hv, hw]
  · simp only [keepsFixed, Bool.false_or, Bool.and_eq_true, bne_iff_ne] at hk
    exact ⟨hk.2, fieldWithin_false.mpr hk.1⟩

theorem within_data {v : Value} {w e : Bool} :
    d.within (.data v w e false) = true ↔ fieldWithin d.value (some v) = true ∧
      fieldWithin d.writable (some w) = true ∧ d.isAccessor = false ∧
      fieldWithin d.enumerable (some e) = true ∧ d.configurable ≠ some true := by
  simp only [within, ofProperty, Bool.and_eq_true, fieldWithin_none, fieldWithin_false,
    isAccessor_eq_false, and_assoc]

/-- A permanent data property is replaced by one with another value and another writability. -/
theorem applyTo?_data (d : Descriptor) (extensible : Bool) (v : Value) (w e : Bool) :
    d.applyTo? extensible (some (.data v w e false)) =
      if d.permittedOn (.data v w e false) then
        some (.data (d.value.getD v) (d.writable.getD w) e false)
      else none := by
  rw [applyTo?_some]
  by_cases hw : d.within (.data v w e false) = true
  · obtain ⟨hv, hwr, ha, he, hc⟩ := within_data.mp hw
    have hperm : d.permittedOn (.data v w e false) = true := by
      refine (permittedOn_permanent rfl).mpr ⟨hc, he, ?_⟩
      by_cases hd : d.isData = true
      · refine Or.inr ⟨by simp [switches, hd, Property.isData], ?_⟩
        cases w with
        | true => rfl
        | false => simpa [keepsFixed, hv] using fieldWithin_false.mp hwr
      · exact Or.inl (isGeneric_iff.mpr ⟨by simpa using hd, ha⟩)
    rw [if_pos hw, if_pos hperm, getD_of_fieldWithin hv, getD_of_fieldWithin hwr]
  · rw [if_neg hw]
    by_cases hperm : d.permittedOn (.data v w e false) = true
    · obtain ⟨hc, he, hrest⟩ := (permittedOn_permanent rfl).mp hperm
      have hs : d.switches (.data v w e false) = false := by
        rcases hrest with hg | ⟨hs, -⟩
        · exact switches_of_isGeneric hg
        · exact hs
      have hc' : d.configurable.getD false = false :=
        getD_of_fieldWithin (fieldWithin_false.mpr hc)
      have he' : d.enumerable.getD e = e := getD_of_fieldWithin he
      rw [if_pos hperm, if_pos hperm, hs, if_neg (by simp), update, hc', he']
    · rw [if_neg hperm, if_neg hperm]

/-- A permanent accessor stays as it is. -/
theorem applyTo?_accessor (d : Descriptor) (extensible : Bool) (g s : Option Value) (e : Bool)
    (h : d.applyTo? extensible (some (.accessor g s e false)) = some q) :
    q = .accessor g s e false := by
  rw [applyTo?_some] at h
  by_cases hw : d.within (.accessor g s e false) = true
  · rw [if_pos hw] at h
    exact (Option.some.inj h).symm
  · rw [if_neg hw] at h
    by_cases hperm : d.permittedOn (.accessor g s e false) = true
    · obtain ⟨hc, he, hrest⟩ := (permittedOn_permanent rfl).mp hperm
      -- A permitted change leaves every field of an accessor alone.
      have hfields : d.isData = false ∧ fieldWithin d.get (some (g.getD .undefined)) = true ∧
          fieldWithin d.set (some (s.getD .undefined)) = true := by
        rcases hrest with hg | ⟨hs, hk⟩
        · obtain ⟨hd, ha⟩ := isGeneric_iff.mp hg
          obtain ⟨hget, hset⟩ := isAccessor_eq_false.mp ha
          exact ⟨hd, by simp [fieldWithin, hget], by simp [fieldWithin, hset]⟩
        · simp only [keepsFixed, Bool.and_eq_true] at hk
          refine ⟨?_, hk.2, hk.1⟩
          cases hd : d.isData with
          | false => rfl
          | true => simp [switches, isGeneric, hd, Property.isData] at hs
      obtain ⟨hv, hwr⟩ := isData_eq_false.mp hfields.1
      refine absurd ?_ hw
      simp only [within, ofProperty, Bool.and_eq_true, fieldWithin_none, fieldWithin_false]
      exact ⟨⟨⟨⟨⟨hv, hwr⟩, hfields.2.1⟩, hfields.2.2⟩, he⟩, hc⟩
    · rw [if_neg hperm] at h
      cases h

end Descriptor

/-! ## Changes of permanent properties -/

namespace Property

/--
The changes that a permanent property admits. It stays permanent and keeps its kind and its
enumerability. An accessor keeps its functions. A data property may become read-only but not
writable again, and keeps its value once it is read-only.
-/
def Admits : Property → Property → Prop
  | data v w e _, q => ∃ v' w', q = data v' w' e false ∧ (w' = true → w = true) ∧
      (w = false → v' = v)
  | accessor g s e _, q => q = accessor g s e false

variable {p q r : Property}

theorem Admits.configurable (h : p.Admits q) : q.configurable = false := by
  cases p with
  | data v w e c =>
    obtain ⟨v', w', rfl, -, -⟩ := h
    rfl
  | accessor g s e c =>
    cases h
    rfl

theorem Admits.refl (hp : p.configurable = false) : p.Admits p := by
  cases p with
  | data v w e c =>
    cases hp
    exact ⟨v, w, rfl, id, fun _ => rfl⟩
  | accessor g s e c =>
    cases hp
    rfl

theorem Admits.trans (hpq : p.Admits q) (hqr : q.Admits r) : p.Admits r := by
  cases p with
  | data v w e c =>
    obtain ⟨v', w', rfl, hw', hv'⟩ := hpq
    obtain ⟨v'', w'', rfl, hw'', hv''⟩ := hqr
    refine ⟨v'', w'', rfl, fun h => hw' (hw'' h), fun h => ?_⟩
    have hread : w' = false := by
      cases hb : w' with
      | false => rfl
      | true => exact absurd (hw' hb) (by simp [h])
    rw [hv'' hread, hv' h]
  | accessor g s e c =>
    cases hpq
    exact hqr

/-- A definition over a permanent property is refused or is a change that the property admits. -/
theorem admits_of_applyTo? {d : Descriptor} {extensible : Bool} (hp : p.configurable = false)
    (h : d.applyTo? extensible (some p) = some q) : p.Admits q := by
  cases p with
  | data v w e c =>
    cases hp
    rw [Descriptor.applyTo?_data] at h
    by_cases hperm : d.permittedOn (.data v w e false) = true
    · rw [if_pos hperm] at h
      cases h
      refine ⟨d.value.getD v, d.writable.getD w, rfl, ?_, ?_⟩
      · intro hw
        cases w with
        | true => rfl
        | false =>
          rw [Descriptor.getD_of_fieldWithin (Descriptor.permittedOn_readOnly hperm).2] at hw
          exact hw
      · intro hw
        cases hw
        exact Descriptor.getD_of_fieldWithin (Descriptor.permittedOn_readOnly hperm).1
    · rw [if_neg hperm] at h
      cases h
  | accessor g s e c =>
    cases hp
    exact Descriptor.applyTo?_accessor d extensible g s e h

/-- A permanent property that is not writable admits no change. -/
theorem eq_of_admits (h : p.Admits q) (hw : p.writable = false)
    (hc : p.configurable = false) : q = p := by
  cases p with
  | data v w e c =>
    cases hw
    cases hc
    obtain ⟨v', w', rfl, hw', hv'⟩ := h
    have hread : w' = false := by
      cases w' with
      | false => rfl
      | true => cases hw' rfl
    rw [hread, hv' rfl]
  | accessor g s e c =>
    cases hc
    exact h

end Property

end Es5
