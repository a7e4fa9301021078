import Es5.Object.Definition
import Es5.Proofs.Record
import Mathlib.Data.List.Forall2
import Mathlib.Order.Basic

/-!
# Objects under other names

Two heaps may hold the same objects in other places. A renaming pairs such places; values,
properties, descriptors and records are related if they are the same but for the places that they
name. What is computed from related data without looking into a heap is related.

* `Renaming`: a one-to-one pairing of places.
* `Value.Renamed`, `Property.Renamed`, `Descriptor.Renamed`, `ObjectRecord.Renamed`: related data.
* `Value.Renamed.eq_iff`: related values are equal on both sides or on none.
* **`Descriptor.Renamed.applyTo?`**: related definitions of related properties.
* `Properties.Renamed.insert`, `Properties.Renamed.erase`: related properties in order.
-/

namespace Es5

/-- A pairing of places that pairs each with at most one. -/
structure Renaming where
  Pairs : Ref → Ref → Prop
  right_unique {r s s' : Ref} : Pairs r s → Pairs r s' → s = s'
  left_unique {r r' s : Ref} : Pairs r s → Pairs r' s → r = r'

namespace Renaming

instance : CoeFun Renaming fun _ => Ref → Ref → Prop := ⟨Pairs⟩

/-- Renamings by what they pair. -/
instance : Preorder Renaming where
  le β γ := ∀ r s, β r s → γ r s
  le_refl _ _ _ hr := hr
  le_trans _ _ _ hβγ hγδ r s hr := hγδ r s (hβγ r s hr)

/-- The renaming of nothing. -/
def empty : Renaming where
  Pairs _ _ := False
  right_unique h := h.elim
  left_unique h := h.elim

theorem empty_le (β : Renaming) : empty ≤ β := fun _ _ h => h.elim

/-- One more pair, of places that were not paired. -/
def add (β : Renaming) (r s : Ref) (hr : ∀ t, ¬β r t) (hs : ∀ t, ¬β t s) : Renaming where
  Pairs r' s' := β r' s' ∨ r' = r ∧ s' = s
  right_unique := by
    rintro r₁ s₁ s₂ (h₁ | ⟨rfl, rfl⟩) (h₂ | ⟨he, rfl⟩)
    · exact β.right_unique h₁ h₂
    · exact absurd (he ▸ h₁) (hr _)
    · exact absurd h₂ (hr _)
    · rfl
  left_unique := by
    rintro r₁ r₂ s₁ (h₁ | ⟨rfl, rfl⟩) (h₂ | ⟨rfl, he⟩)
    · exact β.left_unique h₁ h₂
    · exact absurd (he ▸ h₁) (hs _)
    · exact absurd h₂ (hs _)
    · rfl

theorem le_add {β : Renaming} {r s : Ref} (hr : ∀ t, ¬β r t) (hs : ∀ t, ¬β t s) :
    β ≤ β.add r s hr hs := fun _ _ h => Or.inl h

end Renaming

theorem rel_mono {α α' : Type} {R S : α → α' → Prop} (h : ∀ a b, R a b → S a b) {a : Option α}
    {b : Option α'} (hab : Option.Rel R a b) : Option.Rel S a b := by
  cases hab with
  | some hr => exact .some (h _ _ hr)
  | none => exact .none

theorem isSome_eq_of_rel {α α' : Type} {R : α → α' → Prop} {a : Option α} {b : Option α'}
    (h : Option.Rel R a b) : a.isSome = b.isSome := by cases h <;> rfl

theorem rel_getD {α α' : Type} {R : α → α' → Prop} {a : Option α} {b : Option α'} {x : α} {y : α'}
    (h : Option.Rel R a b) (hxy : R x y) : R (a.getD x) (b.getD y) := by
  cases h with
  | some hr => exact hr
  | none => exact hxy

theorem rel_map {α α' δ δ' : Type} {R : α → α' → Prop} {S : δ → δ' → Prop} {f : α → δ}
    {g : α' → δ'} (hfg : ∀ a b, R a b → S (f a) (g b)) {a : Option α} {b : Option α'}
    (h : Option.Rel R a b) : Option.Rel S (a.map f) (b.map g) := by
  cases h with
  | some hr => exact .some (hfg _ _ hr)
  | none => exact .none

variable {β γ : Renaming}

/-! ## Values -/

/-- The same plain value, or paired objects. -/
inductive Value.Renamed (β : Renaming) : Value → Value → Prop where
  | plain (v : Value) (hv : v.isObject = false) : Renamed β v v
  | object {r s : Ref} (h : β r s) : Renamed β (.object r) (.object s)

namespace Value.Renamed

variable {v v' u u' : Value}

theorem mono (hle : β ≤ γ) (h : Renamed β v v') : Renamed γ v v' := by
  cases h with
  | plain _ hv => exact .plain v hv
  | object hr => exact .object (hle _ _ hr)

theorem undefined : Renamed β .undefined .undefined := .plain _ rfl

theorem isObject (h : Renamed β v v') : v.isObject = v'.isObject := by cases h <;> rfl

theorem toBoolean (h : Renamed β v v') : v.toBoolean = v'.toBoolean := by cases h <;> rfl

/-- Related values are equal on both sides or on none. -/
theorem eq_iff (hv : Renamed β v v') (hu : Renamed β u u') : v = u ↔ v' = u' := by
  cases hv with
  | plain _ hv =>
    cases hu with
    | plain => exact Iff.rfl
    | object => constructor <;> (rintro rfl; cases hv)
  | object hr =>
    cases hu with
    | plain _ hu => constructor <;> (rintro rfl; cases hu)
    | object hs =>
      constructor
      · rintro ⟨⟩
        rw [β.right_unique hr hs]
      · rintro ⟨⟩
        rw [β.left_unique hr hs]

theorem beq_eq (hv : Renamed β v v') (hu : Renamed β u u') : (v == u) = (v' == u') := by
  rw [Bool.eq_iff_iff, beq_iff_eq, beq_iff_eq, hv.eq_iff hu]

theorem bne_undefined (hv : Renamed β v v') :
    (v != Value.undefined) = (v' != Value.undefined) := by
  rw [bne, bne, hv.beq_eq undefined]

theorem strictEquals (hv : Renamed β v v') (hu : Renamed β u u') :
    v.strictEquals u = v'.strictEquals u' := by
  have hbeq := hv.beq_eq hu
  cases hv with
  | plain v hv =>
    cases hu with
    | plain => rfl
    | object => cases v <;> exact hbeq
  | object hr => cases hu <;> exact hbeq

end Value.Renamed

namespace Value

/-- Lists of related values, argument by argument. -/
theorem Renamed.getElem? {vs vs' : List Value} (h : List.Forall₂ (Renamed β) vs vs') (i : Nat) :
    Option.Rel (Renamed β) vs[i]? vs'[i]? := by
  induction h generalizing i with
  | nil => exact .none
  | cons hv _ ih =>
    cases i with
    | zero => exact .some hv
    | succ i => simpa using ih i

theorem Renamed.getD {v v' : Option Value} (h : Option.Rel (Renamed β) v v') :
    Renamed β (v.getD .undefined) (v'.getD .undefined) := rel_getD h .undefined

end Value

/-! ## Properties -/

/-- The same property but for the places that it names. -/
inductive Property.Renamed (β : Renaming) : Property → Property → Prop where
  | data {v v' : Value} (hv : Value.Renamed β v v') (w e c : Bool) :
    Renamed β (.data v w e c) (.data v' w e c)
  | accessor {g g' s s' : Option Value} (hg : Option.Rel (Value.Renamed β) g g')
    (hs : Option.Rel (Value.Renamed β) s s') (e c : Bool) :
    Renamed β (.accessor g s e c) (.accessor g' s' e c)

namespace Property.Renamed

variable {p p' : Property}

theorem mono (hle : β ≤ γ) (h : Renamed β p p') : Renamed γ p p' := by
  cases h with
  | data hv w e c => exact .data (hv.mono hle) w e c
  | accessor hg hs e c =>
    exact .accessor (rel_mono (fun _ _ => .mono hle) hg) (rel_mono (fun _ _ => .mono hle) hs) e c

theorem isData (h : Renamed β p p') : p.isData = p'.isData := by cases h <;> rfl

theorem writable (h : Renamed β p p') : p.writable = p'.writable := by cases h <;> rfl

theorem enumerable (h : Renamed β p p') : p.enumerable = p'.enumerable := by cases h <;> rfl

theorem configurable (h : Renamed β p p') : p.configurable = p'.configurable := by
  cases h <;> rfl

theorem acceptsWrite (h : Renamed β p p') : p.acceptsWrite = p'.acceptsWrite := by
  cases h with
  | data => rfl
  | accessor _ hs => exact isSome_eq_of_rel hs

end Property.Renamed

/-! ## Descriptors -/

/-- The same descriptor but for the places that it names. -/
structure Descriptor.Renamed (β : Renaming) (d d' : Descriptor) : Prop where
  value : Option.Rel (Value.Renamed β) d.value d'.value
  writable : d.writable = d'.writable
  get : Option.Rel (Value.Renamed β) d.get d'.get
  set : Option.Rel (Value.Renamed β) d.set d'.set
  enumerable : d.enumerable = d'.enumerable
  configurable : d.configurable = d'.configurable

namespace Descriptor

theorem fieldWithin_eq {f f' g g' : Option Value} (hf : Option.Rel (Value.Renamed β) f f')
    (hg : Option.Rel (Value.Renamed β) g g') : fieldWithin f g = fieldWithin f' g' := by
  cases hf with
  | none => rfl
  | some hv =>
    cases hg with
    | none => rfl
    | some hu =>
      have hbeq := hv.beq_eq hu
      simpa [fieldWithin] using hbeq

namespace Renamed

variable {d d' : Descriptor} {p p' : Property}

theorem mono (hle : β ≤ γ) (h : Renamed β d d') : Renamed γ d d' where
  value := rel_mono (fun _ _ => .mono hle) h.value
  writable := h.writable
  get := rel_mono (fun _ _ => .mono hle) h.get
  set := rel_mono (fun _ _ => .mono hle) h.set
  enumerable := h.enumerable
  configurable := h.configurable

/-- A descriptor that names no place. -/
theorem attributes (w e c : Option Bool) :
    Renamed β { writable := w, enumerable := e, configurable := c }
      { writable := w, enumerable := e, configurable := c } :=
  ⟨.none, rfl, .none, .none, rfl, rfl⟩

theorem isData (h : Renamed β d d') : d.isData = d'.isData := by
  rw [Descriptor.isData, Descriptor.isData, isSome_eq_of_rel h.value, h.writable]

theorem isAccessor (h : Renamed β d d') : d.isAccessor = d'.isAccessor := by
  rw [Descriptor.isAccessor, Descriptor.isAccessor, isSome_eq_of_rel h.get,
    isSome_eq_of_rel h.set]

theorem isGeneric (h : Renamed β d d') : d.isGeneric = d'.isGeneric := by
  rw [Descriptor.isGeneric, Descriptor.isGeneric, h.isData, h.isAccessor]

theorem isEmpty (h : Renamed β d d') : d.isEmpty = d'.isEmpty := by
  rw [Descriptor.isEmpty, Descriptor.isEmpty, h.isGeneric, h.enumerable, h.configurable]

theorem slot {f f' : Option Value} (h : Option.Rel (Value.Renamed β) f f') :
    Option.Rel (Value.Renamed β) (Descriptor.slot f) (Descriptor.slot f') := by
  cases h with
  | none => exact .none
  | some hv =>
    simp only [Descriptor.slot, Option.filter_some, hv.bne_undefined]
    split
    · exact .some hv
    · exact .none

theorem ofProperty (h : Property.Renamed β p p') :
    Renamed β (Descriptor.ofProperty p) (Descriptor.ofProperty p') := by
  cases h with
  | data hv w e c => exact ⟨.some hv, rfl, .none, .none, rfl, rfl⟩
  | accessor hg hs e c =>
    exact ⟨.none, rfl, .some (Value.Renamed.getD hg), .some (Value.Renamed.getD hs), rfl, rfl⟩

theorem create (h : Renamed β d d') : Property.Renamed β d.create d'.create := by
  rw [Descriptor.create, Descriptor.create, h.isAccessor, h.writable, h.enumerable,
    h.configurable]
  split
  · exact .accessor (slot h.get) (slot h.set) _ _
  · exact .data (Value.Renamed.getD h.value) _ _ _

theorem within (h : Renamed β d d') (hp : Property.Renamed β p p') :
    d.within p = d'.within p' := by
  have hfull := ofProperty hp
  rw [Descriptor.within, Descriptor.within, fieldWithin_eq h.value hfull.value,
    fieldWithin_eq h.get hfull.get, fieldWithin_eq h.set hfull.set, h.writable, h.enumerable,
    h.configurable, hfull.writable, hfull.enumerable, hfull.configurable]

theorem switches (h : Renamed β d d') (hp : Property.Renamed β p p') :
    d.switches p = d'.switches p' := by
  rw [Descriptor.switches, Descriptor.switches, h.isGeneric, h.isData, hp.isData]

theorem keepsFixed (h : Renamed β d d') (hp : Property.Renamed β p p') :
    d.keepsFixed p = d'.keepsFixed p' := by
  cases hp with
  | data hv w e c =>
    rw [Descriptor.keepsFixed, Descriptor.keepsFixed, h.writable, fieldWithin_eq h.value (.some hv)]
  | accessor hg hs e c =>
    rw [Descriptor.keepsFixed, Descriptor.keepsFixed,
      fieldWithin_eq h.set (.some (Value.Renamed.getD hs)),
      fieldWithin_eq h.get (.some (Value.Renamed.getD hg))]

theorem permittedOn (h : Renamed β d d') (hp : Property.Renamed β p p') :
    d.permittedOn p = d'.permittedOn p' := by
  rw [Descriptor.permittedOn, Descriptor.permittedOn, h.isGeneric, h.switches hp,
    h.keepsFixed hp, h.enumerable, h.configurable, hp.enumerable, hp.configurable]

theorem switchKind (hp : Property.Renamed β p p') :
    Property.Renamed β (Descriptor.switchKind p) (Descriptor.switchKind p') := by
  cases hp with
  | data _ _ e c => exact .accessor .none .none e c
  | accessor _ _ e c => exact .data .undefined false e c

theorem update (h : Renamed β d d') (hp : Property.Renamed β p p') :
    Property.Renamed β (d.update p) (d'.update p') := by
  cases hp with
  | data hv w e c =>
    rw [Descriptor.update, Descriptor.update, h.writable, h.enumerable, h.configurable]
    exact .data (rel_getD h.value hv) _ _ _
  | accessor hg hs e c =>
    rw [Descriptor.update, Descriptor.update, h.enumerable, h.configurable,
      isSome_eq_of_rel h.get, isSome_eq_of_rel h.set]
    refine .accessor ?_ ?_ _ _
    · split
      · exact slot h.get
      · exact hg
    · split
      · exact slot h.set
      · exact hs

/-- **Related definitions of related properties** are both refused, or store related properties. -/
theorem applyTo? (h : Renamed β d d') (extensible : Bool) {q q' : Option Property}
    (hq : Option.Rel (Property.Renamed β) q q') :
    Option.Rel (Property.Renamed β) (d.applyTo? extensible q) (d'.applyTo? extensible q') := by
  cases hq with
  | none =>
    rw [Descriptor.applyTo?, Descriptor.applyTo?]
    split
    · exact .some h.create
    · exact .none
  | some hp =>
    rw [Descriptor.applyTo?, Descriptor.applyTo?, h.isEmpty, h.within hp, h.permittedOn hp,
      h.switches hp]
    split
    · exact .some hp
    · split
      · exact .none
      · refine .some (h.update ?_)
        split
        · exact switchKind hp
        · exact hp

end Renamed

end Descriptor

/-! ## Records -/

/-- The same keys in the same order, with related properties. -/
def Properties.Renamed (β : Renaming) (ps ps' : Properties) : Prop :=
  List.Forall₂ (fun x x' => x.1 = x'.1 ∧ Property.Renamed β x.2 x'.2) ps ps'

namespace Properties.Renamed

variable {ps ps' : Properties} {p p' : Property}

theorem mono (hle : β ≤ γ) (h : Renamed β ps ps') : Renamed γ ps ps' :=
  List.Forall₂.imp (fun _ _ hx => ⟨hx.1, hx.2.mono hle⟩) h

/-- Data properties that hold plain values. -/
theorem refl_of_plain (h : ∀ x ∈ ps, Property.Renamed β x.2 x.2) : Renamed β ps ps := by
  induction ps with
  | nil => exact .nil
  | cons x rest ih =>
    exact .cons ⟨rfl, h x List.mem_cons_self⟩ (ih fun y hy => h y (List.mem_cons_of_mem _ hy))

theorem keys (h : Renamed β ps ps') : ps.keys = ps'.keys := by
  induction h with
  | nil => rfl
  | cons hx _ ih =>
    rw [Properties.keys, Properties.keys] at ih ⊢
    rw [List.map_cons, List.map_cons, hx.1, ih]

theorem get? (h : Renamed β ps ps') (key : String) :
    Option.Rel (Property.Renamed β) (ps.get? key) (ps'.get? key) := by
  induction h with
  | nil => exact .none
  | @cons x x' _ _ hx _ ih =>
    obtain ⟨k, p⟩ := x
    obtain ⟨k', p'⟩ := x'
    obtain ⟨rfl, hp⟩ := hx
    rw [Properties.get?_cons, Properties.get?_cons]
    split
    · exact .some hp
    · exact ih

theorem insert (h : Renamed β ps ps') (key : String) (hp : Property.Renamed β p p') :
    Renamed β (ps.insert key p) (ps'.insert key p') := by
  induction h with
  | nil => exact .cons ⟨rfl, hp⟩ .nil
  | @cons x x' _ _ hx hrest ih =>
    obtain ⟨k, q⟩ := x
    obtain ⟨k', q'⟩ := x'
    obtain ⟨rfl, hq⟩ := hx
    rw [Properties.insert, Properties.insert]
    split
    · exact .cons ⟨rfl, hp⟩ hrest
    · exact .cons ⟨rfl, hq⟩ ih

theorem erase (h : Renamed β ps ps') (key : String) :
    Renamed β (ps.erase key) (ps'.erase key) := by
  induction h with
  | nil => exact .nil
  | @cons x x' _ _ hx hrest ih =>
    obtain ⟨k, q⟩ := x
    obtain ⟨k', q'⟩ := x'
    obtain ⟨rfl, hq⟩ := hx
    rw [Properties.erase, Properties.erase]
    split
    · exact hrest
    · exact .cons ⟨rfl, hq⟩ ih

theorem append {qs qs' : Properties} (h : Renamed β ps ps') (hqs : Renamed β qs qs') :
    Renamed β (ps ++ qs) (ps' ++ qs') := List.rel_append h hqs

end Properties.Renamed

/-- The same record but for the places that it names, with behaviours related by `C`. -/
structure ObjectRecord.Renamed {κ κ' : Type} (C : κ → κ' → Prop) (β : Renaming)
    (o : ObjectRecord κ) (o' : ObjectRecord κ') : Prop where
  kind : o.kind = o'.kind
  properties : Properties.Renamed β o.properties o'.properties
  prototype : Option.Rel (Value.Renamed β) o.prototype o'.prototype
  extensible : o.extensible = o'.extensible
  call : Option.Rel C o.call o'.call
  primitive : Option.Rel (Value.Renamed β) o.primitive o'.primitive

namespace ObjectRecord.Renamed

variable {κ κ' : Type} {C D : κ → κ' → Prop} {o : ObjectRecord κ} {o' : ObjectRecord κ'}
  {p p' : Property}

theorem mono (hle : β ≤ γ) (hC : ∀ b b', C b b' → D b b') (h : Renamed C β o o') :
    Renamed D γ o o' where
  kind := h.kind
  properties := h.properties.mono hle
  prototype := rel_mono (fun _ _ => .mono hle) h.prototype
  extensible := h.extensible
  call := rel_mono hC h.call
  primitive := rel_mono (fun _ _ => .mono hle) h.primitive

theorem own? (h : Renamed C β o o') (key : String) :
    Option.Rel (Property.Renamed β) (o.own? key) (o'.own? key) := h.properties.get? key

theorem insert (h : Renamed C β o o') (key : String) (hp : Property.Renamed β p p') :
    Renamed C β (o.insert key p) (o'.insert key p') :=
  { h with properties := h.properties.insert key hp }

theorem erase (h : Renamed C β o o') (key : String) :
    Renamed C β (o.erase key) (o'.erase key) :=
  { h with properties := h.properties.erase key }

theorem close (h : Renamed C β o o') :
    Renamed C β { o with extensible := false } { o' with extensible := false } :=
  { h with extensible := rfl }

theorem setPrototype (h : Renamed C β o o') {proto proto' : Option Value}
    (hproto : Option.Rel (Value.Renamed β) proto proto') :
    Renamed C β { o with prototype := proto } { o' with prototype := proto' } :=
  { h with prototype := hproto }

theorem outline (h : Renamed C β o o') :
    Renamed (fun _ _ => True) β o.outline o'.outline where
  kind := h.kind
  properties := h.properties
  prototype := h.prototype
  extensible := h.extensible
  call := rel_map (fun _ _ _ => trivial) h.call
  primitive := h.primitive

end ObjectRecord.Renamed

end Es5
