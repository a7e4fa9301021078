import Es5.Proofs.Lookup
import Es5.Proofs.Renaming

/-!
# Heaps under other names

Two heaps are related where a renaming pairs places that hold related records. What is read from
related values is related, and changes of paired objects keep the heaps related. Places that are not
paired may hold anything, so the heaps may differ in size.

* `Heap.Renamed C β h h'`: paired places hold related records; `C` relates behaviours.
* **`Heap.Renamed.find?`**: lookups give related properties, though the numbers may differ.
* `Heap.Alike`: results that are equal, with heaps that are related.
* **`Heap.Renamed.define`**, `Heap.Renamed.delete`, `Heap.Renamed.setLength`: changes.
-/

namespace Es5

theorem rel_bind {α α' δ δ' : Type} {R : α → α' → Prop} {S : δ → δ' → Prop} {f : α → Option δ}
    {g : α' → Option δ'} (hfg : ∀ a b, R a b → Option.Rel S (f a) (g b)) {a : Option α}
    {b : Option α'} (h : Option.Rel R a b) : Option.Rel S (a.bind f) (b.bind g) := by
  cases h with
  | some hr => exact hfg _ _ hr
  | none => exact .none

theorem eq_of_rel {α : Type} {a b : Option α} (h : Option.Rel (· = ·) a b) : a = b := by
  cases h with
  | some hr => rw [hr]
  | none => rfl

variable {κ κ' : Type} {C : Renaming → κ → κ' → Prop} {β : Renaming}

/-- Paired places hold related records. -/
def Heap.Renamed (C : Renaming → κ → κ' → Prop) (β : Renaming) (h : Heap κ) (h' : Heap κ') :
    Prop :=
  ∀ r s, β r s → ∃ o o', h[r]? = some o ∧ h'[s]? = some o' ∧ o.Renamed (C β) β o'

namespace Heap

/-- Equal results, and related heaps. -/
structure Alike (C : Renaming → κ → κ' → Prop) (β : Renaming) {α : Type} (x : α × Heap κ)
    (x' : α × Heap κ') : Prop where
  result : x.1 = x'.1
  heap : x.2.Renamed C β x'.2

theorem Alike.exists_eq {α : Type} {x : α × Heap κ} {x' : α × Heap κ'} (hx : Alike C β x x') :
    ∃ a h₁ h₁', x = (a, h₁) ∧ x' = (a, h₁') ∧ h₁.Renamed C β h₁' := by
  obtain ⟨a, h₁⟩ := x
  obtain ⟨a', h₁'⟩ := x'
  obtain ⟨hresult, hheap⟩ := hx
  cases hresult
  exact ⟨a, h₁, h₁', rfl, rfl, hheap⟩

namespace Renamed

variable {h : Heap κ} {h' : Heap κ'} (hh : h.Renamed C β h') {v v' : Value}

include hh

/-! ## Reading -/

theorem lt_size {r s : Ref} (hr : β r s) : r < h.size ∧ s < h'.size := by
  obtain ⟨o, o', ho, ho', -⟩ := hh r s hr
  exact ⟨(Array.getElem?_eq_some_iff.mp ho).1, (Array.getElem?_eq_some_iff.mp ho').1⟩

theorem record? (hv : Value.Renamed β v v') :
    Option.Rel (ObjectRecord.Renamed (C β) β) (h.record? v) (h'.record? v') := by
  cases hv with
  | plain v hv => cases v <;> first | exact .none | cases hv
  | object hr =>
    obtain ⟨o, o', ho, ho', hoo⟩ := hh _ _ hr
    rw [Heap.record?, Heap.record?, ho, ho']
    exact .some hoo

theorem call (hv : Value.Renamed β v v') : Option.Rel (C β) ((h.record? v).bind (·.call))
    ((h'.record? v').bind (·.call)) :=
  rel_bind (fun _ _ hoo => hoo.call) (hh.record? hv)

theorem isCallable (hv : Value.Renamed β v v') : h.isCallable v = h'.isCallable v' :=
  isSome_eq_of_rel (hh.call hv)

theorem typeName (hv : Value.Renamed β v v') : h.typeName v = h'.typeName v' := by
  rw [Heap.typeName, Heap.typeName, hh.isCallable hv]
  cases hv <;> rfl

theorem kind? (hv : Value.Renamed β v v') : h.kind? v = h'.kind? v' :=
  eq_of_rel (rel_map (fun _ _ hoo => hoo.kind) (hh.record? hv))

theorem prototype? (hv : Value.Renamed β v v') :
    Option.Rel (Value.Renamed β) (h.prototype? v) (h'.prototype? v') :=
  rel_bind (fun _ _ hoo => hoo.prototype) (hh.record? hv)

theorem isExtensible (hv : Value.Renamed β v v') : h.isExtensible v = h'.isExtensible v' :=
  rel_getD (R := (· = ·)) (rel_map (fun _ _ hoo => hoo.extensible) (hh.record? hv)) rfl

theorem ownKeys (hv : Value.Renamed β v v') : h.ownKeys v = h'.ownKeys v' :=
  rel_getD (R := (· = ·)) (rel_map (fun _ _ hoo => hoo.properties.keys) (hh.record? hv)) rfl

theorem own? (hv : Value.Renamed β v v') (key : String) :
    Option.Rel (Property.Renamed β) (h.own? v key) (h'.own? v' key) :=
  rel_bind (fun _ _ hoo => hoo.own? key) (hh.record? hv)

theorem outline (hv : Value.Renamed β v v') :
    Option.Rel (ObjectRecord.Renamed (fun _ _ => True) β) ((h.record? v).map (·.outline))
      ((h'.record? v').map (·.outline)) :=
  rel_map (fun _ _ hoo => hoo.outline) (hh.record? hv)

theorem findWithin (key : String) : ∀ (fuel : Nat) {v v' : Value}, Value.Renamed β v v' →
    Option.Rel (Property.Renamed β) (h.findWithin key fuel v) (h'.findWithin key fuel v')
  | 0, _, _, _ => .none
  | fuel + 1, v, v', hv => by
    have hown := hh.own? hv key
    have hproto := hh.prototype? hv
    rw [Heap.findWithin, Heap.findWithin]
    generalize h.own? v key = q, h'.own? v' key = q' at hown
    cases hown with
    | some hp => exact .some hp
    | none =>
      generalize h.prototype? v = u, h'.prototype? v' = u' at hproto
      cases hproto with
      | some hu => exact findWithin key fuel hu
      | none => exact .none

/-- **Lookups give related properties**, also where one heap has more objects than the other. -/
theorem find? (hv : Value.Renamed β v v') (key : String) :
    Option.Rel (Property.Renamed β) (h.find? v key) (h'.find? v' key) := by
  rw [← findWithin_of_size_le (Nat.le_max_left h.size h'.size),
    ← findWithin_of_size_le (Nat.le_max_right h.size h'.size)]
  exact hh.findWithin key _ hv

theorem hasProperty (hv : Value.Renamed β v v') (key : String) :
    h.hasProperty v key = h'.hasProperty v' key := isSome_eq_of_rel (hh.find? hv key)

theorem canPut (hv : Value.Renamed β v v') (key : String) :
    h.canPut v key = h'.canPut v' key := by
  have hown := hh.own? hv key
  have hinherited : Option.Rel (Property.Renamed β) ((h.prototype? v).bind (h.find? · key))
      ((h'.prototype? v').bind (h'.find? · key)) :=
    rel_bind (fun u u' (hu : Value.Renamed β u u') => hh.find? hu key) (hh.prototype? hv)
  rw [Heap.canPut, Heap.canPut, hh.isExtensible hv]
  generalize h.own? v key = q, h'.own? v' key = q' at hown
  cases hown with
  | some hp => exact hp.acceptsWrite
  | none =>
    generalize (h.prototype? v).bind (h.find? · key) = q,
      (h'.prototype? v').bind (h'.find? · key) = q' at hinherited
    cases hinherited with
    | none => rfl
    | some hp =>
      cases hp with
      | data => rfl
      | accessor _ hs => exact isSome_eq_of_rel hs

theorem arrayLength {r s : Ref} (hr : β r s) : h.arrayLength r = h'.arrayLength s := by
  have hown := hh.own? (.object hr) "length"
  rw [Heap.arrayLength, Heap.arrayLength]
  generalize h.own? (.object r) "length" = q, h'.own? (.object s) "length" = q' at hown
  cases hown with
  | none => rfl
  | some hp =>
    cases hp with
    | accessor => rfl
    | data hv => cases hv <;> rfl

/-! ## Writing -/

variable {r s : Ref} (hr : β r s)

include hr

theorem update {f : ObjectRecord κ → ObjectRecord κ} {g : ObjectRecord κ' → ObjectRecord κ'}
    (hfg : ∀ o o', o.Renamed (C β) β o' → (f o).Renamed (C β) β (g o')) :
    (h.update r f).Renamed C β (h'.update s g) := by
  intro r' s' hr'
  obtain ⟨o, o', ho, ho', hoo⟩ := hh r' s' hr'
  by_cases he : r = r'
  · subst he
    obtain rfl := β.right_unique hr hr'
    exact ⟨f o, g o', getElem?_update_self ho f, getElem?_update_self ho' g, hfg o o' hoo⟩
  · have he' : s ≠ s' := by
      rintro rfl
      exact he (β.left_unique hr hr')
    exact ⟨o, o', (getElem?_update_of_ne he f).trans ho, (getElem?_update_of_ne he' g).trans ho',
      hoo⟩

theorem insert (key : String) {p p' : Property} (hp : Property.Renamed β p p') :
    (h.update r (·.insert key p)).Renamed C β (h'.update s (·.insert key p')) :=
  hh.update hr fun _ _ hoo => hoo.insert key hp

theorem erase (key : String) :
    (h.update r (·.erase key)).Renamed C β (h'.update s (·.erase key)) :=
  hh.update hr fun _ _ hoo => hoo.erase key

/-- **Related definitions of paired objects** end alike. -/
theorem define (key : String) {d d' : Descriptor} (hd : Descriptor.Renamed β d d') :
    Alike C β (h.define r key d) (h'.define s key d') := by
  obtain ⟨o, o', ho, ho', hoo⟩ := hh r s hr
  have happly := hd.applyTo? o.extensible (hoo.own? key)
  rcases define_cases ho key d with ⟨hn, he⟩ | ⟨p, hp, he⟩
  · rw [hn, hoo.extensible] at happly
    rcases define_cases ho' key d' with ⟨-, he'⟩ | ⟨p', hp', -⟩
    · rw [he, he']
      exact ⟨rfl, hh⟩
    · rw [hp'] at happly
      cases happly
  · rw [hp, hoo.extensible] at happly
    rcases define_cases ho' key d' with ⟨hn', -⟩ | ⟨p', hp', he'⟩
    · rw [hn'] at happly
      cases happly
    · rw [hp'] at happly
      cases happly with
      | some hpp =>
        rw [he, he']
        exact ⟨rfl, hh.insert hr key hpp⟩

theorem delete (key : String) : Alike C β (h.delete r key) (h'.delete s key) := by
  have hown := hh.own? (.object hr) key
  rw [Heap.delete, Heap.delete]
  generalize h.own? (.object r) key = q, h'.own? (.object s) key = q' at hown
  cases hown with
  | none => exact ⟨rfl, hh⟩
  | some hp =>
    dsimp only
    rw [hp.configurable]
    split
    · exact ⟨rfl, hh.erase hr key⟩
    · exact ⟨rfl, hh⟩

theorem unstore (key : String) : Option.Rel (Property.Renamed β) (h.own? (.object r) key)
      (h'.own? (.object s) key) ∧
    (h.update r (·.erase key)).Renamed C β (h'.update s (·.erase key)) :=
  ⟨hh.own? (.object hr) key, hh.erase hr key⟩

end Renamed

/-! ## Arrays -/

theorem renamed_length (n : Nat) (w : Option Bool) :
    Descriptor.Renamed β { value := some (lengthValue n), writable := w }
      { value := some (lengthValue n), writable := w } :=
  ⟨.some (.plain _ rfl), rfl, .none, .none, rfl, rfl⟩

namespace Renamed

variable {h : Heap κ} {h' : Heap κ'} (hh : h.Renamed C β h') {r s : Ref} (hr : β r s)

include hh hr

theorem defineElement (index : Nat) (key : String) {d d' : Descriptor}
    (hd : Descriptor.Renamed β d d') :
    Alike C β (h.defineElement r index key d) (h'.defineElement s index key d') := by
  rw [Heap.defineElement, Heap.defineElement, hh.arrayLength hr]
  dsimp only
  split
  · exact ⟨rfl, hh⟩
  · obtain ⟨accepted, h₁, h₁', he, he', hheap⟩ := (hh.define hr key hd).exists_eq
    rw [he, he']
    cases accepted with
    | false => exact ⟨rfl, hheap⟩
    | true =>
      dsimp only
      split
      · exact ⟨rfl, (hheap.define hr "length" (renamed_length (index + 1) none)).heap⟩
      · exact ⟨rfl, hheap⟩

omit hh in
theorem deleteElements : ∀ (indices : List Nat) {h : Heap κ} {h' : Heap κ'},
    h.Renamed C β h' →
    Alike C β (h.deleteElements r indices) (h'.deleteElements s indices)
  | [], _, _, hh => ⟨rfl, hh⟩
  | i :: rest, h, h', hh => by
    obtain ⟨gone, h₁, h₁', he, he', hheap⟩ := (hh.delete hr (indexKey i)).exists_eq
    rw [Heap.deleteElements, Heap.deleteElements, he, he']
    cases gone with
    | true => exact deleteElements rest hheap
    | false => exact ⟨rfl, hheap⟩

theorem truncate (length : Nat) {d d' : Descriptor} (hd : Descriptor.Renamed β d d') :
    Alike C β (h.truncate r length d) (h'.truncate s length d') := by
  have hwritable : Descriptor.Renamed β { d with writable := some true }
      { d' with writable := some true } := { hd with writable := rfl }
  obtain ⟨accepted, h₁, h₁', he, he', hheap⟩ := (hh.define hr "length" hwritable).exists_eq
  rw [Heap.truncate, Heap.truncate, hd.writable, he, he']
  cases accepted with
  | false => exact ⟨rfl, hheap⟩
  | true =>
    have hindices : h₁.indicesFrom r length = h₁'.indicesFrom s length := by
      rw [indicesFrom, indicesFrom, hheap.ownKeys (.object hr)]
    obtain ⟨stopped, h₂, h₂', he₂, he₂', hdeleted⟩ :=
      (deleteElements hr (h₁'.indicesFrom s length) hheap).exists_eq
    dsimp only
    rw [hindices, he₂, he₂']
    cases stopped with
    | some i => exact ⟨rfl, (hdeleted.define hr "length" (renamed_length (i + 1) _)).heap⟩
    | none =>
      dsimp only
      split
      · exact ⟨rfl, hdeleted⟩
      · exact ⟨rfl, (hdeleted.define hr "length" (.attributes (some false) none none)).heap⟩

theorem setLength (former : Nat × Bool) (length : Nat) {d d' : Descriptor}
    (hd : Descriptor.Renamed β d d') :
    Alike C β (h.setLength r former length d) (h'.setLength s former length d') := by
  have hvalue : Descriptor.Renamed β { d with value := some (lengthValue length) }
      { d' with value := some (lengthValue length) } := { hd with value := .some (.plain _ rfl) }
  rw [Heap.setLength, Heap.setLength]
  split
  · exact hh.define hr "length" hvalue
  · split
    · exact ⟨rfl, hh⟩
    · exact hh.truncate hr length hvalue

end Renamed

end Heap

end Es5
