import Es5.Proofs.Permanent
import Mathlib.Tactic.ByContra

/-!
# The rule of definitions

A definition is refused for one of a few reasons. Otherwise it makes exactly one property: a field
that the descriptor gives is as given, and any other is as in the property that was there, or has
its default where that property has no such field.

* `Property.Settled`: an undefined getter or setter is stored as absent.
* `Descriptor.Refused`: the reasons to refuse a definition.
* `Descriptor.Makes`: the property that a definition makes.
* `Descriptor.applyTo?_settled`: a definition over a property, without its short cut.
* **`Descriptor.applyTo?_refuses_or_makes`**: the whole rule.
-/

namespace Es5

/-- A getter or setter that is undefined is stored as absent. -/
def Property.Settled : Property → Prop
  | data .. => True
  | accessor g s _ _ => g ≠ some .undefined ∧ s ≠ some .undefined

namespace Descriptor

/-! ## The rule -/

/-- The reasons to refuse a definition over the property that is there, if there is one. -/
inductive Refused (d : Descriptor) (extensible : Bool) : Option Property → Prop where
  /-- There is no such property, and none may be added. -/
  | closed (h : extensible = false) : Refused d extensible none
  | configurable {p : Property} (hp : p.configurable = false) (h : d.configurable = some true) :
    Refused d extensible (some p)
  | enumerable {p : Property} {e : Bool} (hp : p.configurable = false)
    (h : d.enumerable = some e) (hne : e ≠ p.enumerable) : Refused d extensible (some p)
  /-- An accessor is to replace a permanent data property, or the other way round. -/
  | kind {p : Property} (hp : p.configurable = false)
    (h : if p.isData then d.isAccessor = true else d.isData = true) :
    Refused d extensible (some p)
  | writable {v : Value} {e : Bool} (h : d.writable = some true) :
    Refused d extensible (some (.data v false e false))
  | value {v x : Value} {e : Bool} (h : d.value = some x) (hne : x.same v = false) :
    Refused d extensible (some (.data v false e false))
  | get {f : Value} {g s : Option Value} {e : Bool} (h : d.get = some f)
    (hne : f.same (g.getD .undefined) = false) :
    Refused d extensible (some (.accessor g s e false))
  | set {f : Value} {g s : Option Value} {e : Bool} (h : d.set = some f)
    (hne : f.same (s.getD .undefined) = false) :
    Refused d extensible (some (.accessor g s e false))

/-- The fields of the property that is there; without one there are none. -/
def ofCurrent (current : Option Property) : Descriptor := current.elim {} ofProperty

/--
The property that a definition makes. Its kind is the one asked for, and else the one that was
there. A field is the one given, or else the one that was there, or else the default.
-/
structure Makes (d : Descriptor) (current : Option Property) (q : Property) : Prop where
  settled : q.Settled
  isData : q.isData = if d.isGeneric then current.all (·.isData) else d.isData
  value : q.isData = true →
    (ofProperty q).value = some ((d.value.or (ofCurrent current).value).getD .undefined)
  writable : q.isData = true →
    (ofProperty q).writable = some ((d.writable.or (ofCurrent current).writable).getD false)
  get : q.isData = false →
    (ofProperty q).get = some ((d.get.or (ofCurrent current).get).getD .undefined)
  set : q.isData = false →
    (ofProperty q).set = some ((d.set.or (ofCurrent current).set).getD .undefined)
  enumerable : q.enumerable = (d.enumerable.or (ofCurrent current).enumerable).getD false
  configurable : q.configurable = (d.configurable.or (ofCurrent current).configurable).getD false

variable {d : Descriptor} {p q q' : Property} {extensible : Bool} {current : Option Property}

/-! ## Short cuts -/

theorem fieldWithin_iff {α : Type} [BEq α] [LawfulBEq α] {field : Option α} {a : α} :
    fieldWithin field (some a) = true ↔ ∀ b, field = some b → b = a := by
  cases field <;> simp [fieldWithin]

theorem slot_getD {f : Option Value} (hf : f ≠ some .undefined) :
    slot (some (f.getD .undefined)) = f := by
  cases f with
  | none => rfl
  | some v => simpa [slot, Option.filter] using hf

theorem getD_slot (f : Option Value) : (slot f).getD .undefined = f.getD .undefined := by
  cases f with
  | none => rfl
  | some v => by_cases hv : v = .undefined <;> simp [slot, Option.filter, hv]

theorem slot_ne (f : Option Value) : slot f ≠ some .undefined := by
  intro h
  simp [slot, Option.filter_eq_some_iff] at h

/-- A descriptor that asks for nothing new is of the same kind as the property. -/
theorem switches_of_within (h : d.within p = true) : d.switches p = false := by
  cases p with
  | data v w e c =>
    have ha : d.isAccessor = false := by
      simp only [within, ofProperty, Bool.and_eq_true, fieldWithin_none] at h
      exact isAccessor_eq_false.mpr ⟨h.1.1.1.2, h.1.1.2⟩
    cases hk : d.isData <;> simp [switches, isGeneric, Property.isData, hk, ha]
  | accessor g s e c =>
    have hk : d.isData = false := by
      simp only [within, ofProperty, Bool.and_eq_true, fieldWithin_none] at h
      exact isData_eq_false.mpr ⟨h.1.1.1.1.1, h.1.1.1.1.2⟩
    simp [switches, Property.isData, hk]

theorem permittedOn_of_within (h : d.within p = true) : d.permittedOn p = true := by
  have hs := switches_of_within h
  cases hc : p.configurable with
  | true => simp [permittedOn, hc]
  | false =>
    rw [permittedOn_permanent hc]
    cases p with
    | data v w e c =>
      cases hc
      obtain ⟨hv, hw, -, he, hc⟩ := within_data.mp h
      refine ⟨hc, he, Or.inr ⟨hs, ?_⟩⟩
      cases w with
      | true => rfl
      | false => simpa [keepsFixed, hv] using fieldWithin_false.mp hw
    | accessor g s e c =>
      cases hc
      simp only [within, ofProperty, Bool.and_eq_true, fieldWithin_false] at h
      obtain ⟨⟨⟨⟨-, hg⟩, hset⟩, he⟩, hc⟩ := h
      exact ⟨hc, he, Or.inr ⟨hs, by simp [keepsFixed, hg, hset]⟩⟩

/-- Fields that are as they were leave a property as it was. -/
theorem update_of_within (hp : p.Settled) (h : d.within p = true) : d.update p = p := by
  cases p with
  | data v w e c =>
    simp only [within, ofProperty, Bool.and_eq_true] at h
    obtain ⟨⟨⟨⟨⟨hv, hw⟩, -⟩, -⟩, he⟩, hc⟩ := h
    simp only [update, getD_of_fieldWithin hv, getD_of_fieldWithin hw, getD_of_fieldWithin he,
      getD_of_fieldWithin hc]
  | accessor g s e c =>
    simp only [within, ofProperty, Bool.and_eq_true] at h
    obtain ⟨⟨⟨-, hg⟩, hset⟩, he⟩ := h.1
    have hhalf : ∀ {field half : Option Value}, half ≠ some .undefined →
        fieldWithin field (some (half.getD .undefined)) = true →
          (if field.isSome then slot field else half) = half := by
      intro field half hhalf hfield
      cases field with
      | none => rfl
      | some f =>
        have hf : f = half.getD .undefined := getD_of_fieldWithin hfield
        rw [hf]
        exact slot_getD hhalf
    simp only [update, hhalf hp.1 hg, hhalf hp.2 hset, getD_of_fieldWithin he,
      getD_of_fieldWithin h.2]

/-- A definition over a property replaces fields if the property permits that. -/
theorem applyTo?_settled (hp : p.Settled) : d.applyTo? extensible (some p) =
    if d.permittedOn p then some (d.update (if d.switches p then switchKind p else p))
    else none := by
  rw [applyTo?_some]
  by_cases hw : d.within p = true
  · rw [if_pos hw, if_pos (permittedOn_of_within hw), switches_of_within hw]
    rw [if_neg (by simp), update_of_within hp hw]
  · rw [if_neg hw]

/-! ## Refusals -/

theorem not_refused_none : ¬d.Refused true none := by
  intro h
  cases h
  contradiction

/-- A property that is configurable may be replaced in every way. -/
theorem not_refused_of_configurable (hp : p.configurable = true) :
    ¬d.Refused extensible (some p) := by
  intro h
  cases h <;> simp_all [Property.configurable]

theorem keepsFixed_of_isGeneric (h : d.isGeneric = true) : d.keepsFixed p = true := by
  obtain ⟨hd, ha⟩ := isGeneric_iff.mp h
  obtain ⟨hv, hw⟩ := isData_eq_false.mp hd
  obtain ⟨hg, hs⟩ := isAccessor_eq_false.mp ha
  cases p <;> simp [keepsFixed, fieldWithin, hv, hw, hg, hs]

/-- What a permanent property permits, said the same of descriptors of every kind. -/
theorem permittedOn_iff_keeps (hp : p.configurable = false) :
    d.permittedOn p = true ↔ d.configurable ≠ some true ∧
      fieldWithin d.enumerable (some p.enumerable) = true ∧
      d.switches p = false ∧ d.keepsFixed p = true := by
  rw [permittedOn_permanent hp]
  refine and_congr_right fun _ => and_congr_right fun _ => ⟨?_, Or.inr⟩
  rintro (hg | h)
  · exact ⟨switches_of_isGeneric hg, keepsFixed_of_isGeneric hg⟩
  · exact h

theorem switches_eq_false_iff (hd : (d.isData && d.isAccessor) = false) :
    d.switches p = false ↔ ¬(if p.isData then d.isAccessor = true else d.isData = true) := by
  cases hk : d.isData <;> cases ha : d.isAccessor <;> cases hp : p.isData <;>
    simp [switches, isGeneric, hk, ha, hp] at hd ⊢

theorem keepsFixed_of_not_refused (hp : p.configurable = false)
    (h : ¬d.Refused extensible (some p)) : d.keepsFixed p = true := by
  cases p with
  | data v w e c =>
    cases hp
    cases w with
    | true => rfl
    | false =>
      simp only [keepsFixed, Bool.false_or, Bool.and_eq_true, bne_iff_ne, fieldWithin_iff]
      refine ⟨fun hw => h (.writable hw), fun x hx => ?_⟩
      by_contra hne
      exact h (.value hx (by simpa [Value.same] using hne))
  | accessor g s e c =>
    cases hp
    simp only [keepsFixed, Bool.and_eq_true, fieldWithin_iff]
    refine ⟨fun f hf => ?_, fun f hf => ?_⟩
    · by_contra hne
      exact h (.set hf (by simpa [Value.same] using hne))
    · by_contra hne
      exact h (.get hf (by simpa [Value.same] using hne))

/-- A property permits what is not refused, and nothing else. -/
theorem permittedOn_iff_not_refused (hd : (d.isData && d.isAccessor) = false) :
    d.permittedOn p = true ↔ ¬d.Refused extensible (some p) := by
  constructor
  · intro hperm hrefused
    cases hrefused with
    | configurable hp h => exact ((permittedOn_iff_keeps hp).mp hperm).1 h
    | enumerable hp h hne =>
      exact hne (fieldWithin_iff.mp ((permittedOn_iff_keeps hp).mp hperm).2.1 _ h)
    | kind hp h =>
      exact (switches_eq_false_iff hd).mp ((permittedOn_iff_keeps hp).mp hperm).2.2.1 h
    | writable h =>
      have hkeeps := ((permittedOn_iff_keeps rfl).mp hperm).2.2.2
      simp [keepsFixed, h] at hkeeps
    | value h hne =>
      have hkeeps := ((permittedOn_iff_keeps rfl).mp hperm).2.2.2
      simp only [keepsFixed, Bool.false_or, Bool.and_eq_true, fieldWithin_iff] at hkeeps
      simp [Value.same, hkeeps.2 _ h] at hne
    | get h hne =>
      have hkeeps := ((permittedOn_iff_keeps rfl).mp hperm).2.2.2
      simp only [keepsFixed, Bool.and_eq_true, fieldWithin_iff] at hkeeps
      simp [Value.same, hkeeps.2 _ h] at hne
    | set h hne =>
      have hkeeps := ((permittedOn_iff_keeps rfl).mp hperm).2.2.2
      simp only [keepsFixed, Bool.and_eq_true, fieldWithin_iff] at hkeeps
      simp [Value.same, hkeeps.1 _ h] at hne
  · intro h
    cases hc : p.configurable with
    | true => simp [permittedOn, hc]
    | false =>
      refine (permittedOn_iff_keeps hc).mpr ⟨fun hconf => h (.configurable hc hconf), ?_, ?_, ?_⟩
      · rw [fieldWithin_iff]
        intro e he
        by_contra hne
        exact h (.enumerable hc he hne)
      · exact (switches_eq_false_iff hd).mpr fun hkind => h (.kind hc hkind)
      · exact keepsFixed_of_not_refused hc h

/-! ## Properties made -/

theorem makes_create (hd : (d.isData && d.isAccessor) = false) : d.Makes none d.create := by
  cases ha : d.isAccessor with
  | true =>
    have hk : d.isData = false := by simpa [ha] using hd
    have hg : d.isGeneric = false := by simp [isGeneric, ha]
    simp only [create, ha, if_true]
    constructor <;> simp [Property.Settled, slot_ne, ofCurrent, ofProperty, getD_slot, hk, hg,
      Property.isData, Property.enumerable, Property.configurable]
  | false =>
    simp only [create, ha, Bool.false_eq_true, if_false]
    constructor <;> simp [Property.Settled, ofCurrent, ofProperty, isGeneric, ha,
      Property.isData, Property.enumerable, Property.configurable]

theorem half_ne {half : Option Value} (h : half ≠ some .undefined) (field : Option Value) :
    (if field.isSome then slot field else half) ≠ some .undefined := by
  split
  · exact slot_ne field
  · exact h

theorem getD_half (field half : Option Value) :
    (if field.isSome then slot field else half).getD .undefined =
      (field.or (some (half.getD .undefined))).getD .undefined := by
  cases field with
  | none => simp
  | some f => simp [getD_slot]

/-- A descriptor of no other kind replaces the fields that it gives. -/
theorem makes_update (hp : p.Settled) (hs : d.switches p = false) :
    d.Makes (some p) (d.update p) := by
  have hkind : p.isData = if d.isGeneric then p.isData else d.isData := by
    cases hg : d.isGeneric with
    | true => rfl
    | false => simpa [switches, hg] using hs
  cases p with
  | data v w e c =>
    refine ⟨trivial, hkind, ?_, ?_, ?_, ?_, ?_, ?_⟩ <;>
      simp [update, ofCurrent, ofProperty, Property.isData, Property.enumerable,
        Property.configurable]
  | accessor g s e c =>
    refine ⟨⟨half_ne hp.1 _, half_ne hp.2 _⟩, hkind, ?_, ?_, ?_, ?_, ?_, ?_⟩ <;>
      simp [update, ofCurrent, ofProperty, Property.isData, Property.enumerable,
        Property.configurable, getD_half]

/-- A descriptor of the other kind keeps the fields that both kinds have. -/
theorem makes_switchKind (hs : d.switches p = true) :
    d.Makes (some p) (d.update (switchKind p)) := by
  have hg : d.isGeneric = false := by
    cases hg : d.isGeneric with
    | true => simp [switches, hg] at hs
    | false => rfl
  have hkind : d.isData = !p.isData := by
    cases hk : d.isData <;> cases hp : p.isData <;> simp [switches, hg, hk, hp] at hs ⊢
  have hnone : (none : Option Value) ≠ some .undefined := by simp
  cases p with
  | data v w e c =>
    refine ⟨⟨half_ne hnone _, half_ne hnone _⟩, ?_, ?_, ?_, ?_, ?_, ?_, ?_⟩ <;>
      simp_all [update, switchKind, ofCurrent, ofProperty, Property.isData, Property.enumerable,
        Property.configurable, getD_half]
  | accessor g s e c =>
    refine ⟨trivial, ?_, ?_, ?_, ?_, ?_, ?_, ?_⟩ <;>
      simp_all [update, switchKind, ofCurrent, ofProperty, Property.isData, Property.enumerable,
        Property.configurable]

/-- A definition makes no more than one property. -/
theorem Makes.unique (hq : d.Makes current q) (hq' : d.Makes current q') : q = q' := by
  have hkind : q.isData = q'.isData := hq.isData.trans hq'.isData.symm
  have he : q.enumerable = q'.enumerable := hq.enumerable.trans hq'.enumerable.symm
  have hc : q.configurable = q'.configurable := hq.configurable.trans hq'.configurable.symm
  cases q with
  | data v w e c =>
    cases q' with
    | data v' w' e' c' =>
      have hv := (hq.value rfl).trans (hq'.value rfl).symm
      have hw := (hq.writable rfl).trans (hq'.writable rfl).symm
      simp_all [ofProperty, Property.enumerable, Property.configurable]
    | accessor => cases hkind
  | accessor g s e c =>
    cases q' with
    | data => cases hkind
    | accessor g' s' e' c' =>
      have hg : g.getD .undefined = g'.getD .undefined :=
        Option.some.inj ((hq.get rfl).trans (hq'.get rfl).symm)
      have hs : s.getD .undefined = s'.getD .undefined :=
        Option.some.inj ((hq.set rfl).trans (hq'.set rfl).symm)
      have hgg : g = g' := by
        rw [← slot_getD hq.settled.1, hg, slot_getD hq'.settled.1]
      have hss : s = s' := by
        rw [← slot_getD hq.settled.2, hs, slot_getD hq'.settled.2]
      simp_all [Property.enumerable, Property.configurable]

theorem applyTo?_cases (extensible : Bool) (hd : (d.isData && d.isAccessor) = false)
    (hcurrent : ∀ p, current = some p → p.Settled) :
    d.Refused extensible current ∧ d.applyTo? extensible current = none ∨
      ¬d.Refused extensible current ∧
        ∃ q, d.applyTo? extensible current = some q ∧ d.Makes current q := by
  cases current with
  | none =>
    cases extensible with
    | false => exact Or.inl ⟨.closed rfl, rfl⟩
    | true => exact Or.inr ⟨not_refused_none, _, rfl, makes_create hd⟩
  | some p =>
    have hp := hcurrent p rfl
    rw [applyTo?_settled hp]
    by_cases hperm : d.permittedOn p = true
    · refine Or.inr ⟨(permittedOn_iff_not_refused hd).mp hperm, _, if_pos hperm, ?_⟩
      cases hs : d.switches p with
      | false => exact makes_update hp hs
      | true => exact makes_switchKind hs
    · have hrefused : d.Refused extensible (some p) := by
        by_contra h
        exact hperm ((permittedOn_iff_not_refused hd).mpr h)
      exact Or.inl ⟨hrefused, if_neg hperm⟩

/--
**The rule of definitions.** A descriptor that is not of both kinds is refused exactly for one of
the reasons to refuse, and otherwise makes exactly the property that its fields, those that were
there and the defaults spell.
-/
theorem applyTo?_refuses_or_makes (extensible : Bool) (hd : (d.isData && d.isAccessor) = false)
    (hcurrent : ∀ p, current = some p → p.Settled) :
    (d.applyTo? extensible current = none ↔ d.Refused extensible current) ∧
      ∀ q, d.applyTo? extensible current = some q ↔
        ¬d.Refused extensible current ∧ d.Makes current q := by
  rcases applyTo?_cases extensible hd hcurrent with
    ⟨hrefused, hnone⟩ | ⟨hrefused, q, hq, hmakes⟩
  · rw [hnone]
    simp [hrefused]
  · rw [hq]
    simp only [reduceCtorEq, hrefused, not_false_eq_true, true_and, Option.some_inj]
    intro q'
    constructor
    · rintro rfl
      exact hmakes
    · exact hmakes.unique

/-- The zeros differ, and a value makes a property of an accessor that may be replaced. -/
theorem applyTo?_refuses_or_makes_zero :
    let d : Descriptor := { value := some (.number .zero) }
    let negative : Property := .data (.number (.ofRank true 0)) false true false
    let getter : Property := .accessor (some (.object 0)) none true true
    d.applyTo? true (some negative) = none ∧
      d.applyTo? false (some getter) = some (.data (.number .zero) false true true) := by
  intro d negative getter
  have hd : (d.isData && d.isAccessor) = false := by decide
  constructor
  · refine (applyTo?_refuses_or_makes true hd ?_).1.mpr (.value rfl (by decide +kernel))
    rintro _ ⟨⟩
    trivial
  · refine ((applyTo?_refuses_or_makes false hd ?_).2 _).mpr ⟨?_, ?_⟩
    · rintro _ ⟨⟩
      exact ⟨by decide, by decide⟩
    · exact not_refused_of_configurable rfl
    · constructor <;> simp [Property.Settled, d, getter, ofCurrent, ofProperty, isGeneric, isData,
        Property.isData, Property.enumerable, Property.configurable]

end Descriptor

end Es5
