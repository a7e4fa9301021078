import Es5.Proofs.Frozen
import Es5.Proofs.Resize

/-!
# Sealing and freezing

Both functions redefine the own properties one by one and then forbid new ones. No definition is
refused on the way: an array's length may become read-only before its elements are reached, but it
stays above all of them, and so each of them is defined as any property. Nothing else of the object
changes, no other object does, and no user code runs.

* `Property.sealed`, `Property.frozen`: what becomes of a property.
* `ObjectRecord.closedBy`: what becomes of an object.
* `Descriptor.Closes`: descriptors that are accepted by the properties they are made for.
* `Eval.closeAll_eq`: the loop over the own keys.
* **`Eval.seals_and_freezes`**: the outcome of both functions and of the two tests.
-/

namespace Es5

/-! ## What becomes of an object -/

/-- A property that cannot be deleted or redefined any more. -/
def Property.sealed : Property → Property
  | data value writable enumerable _ => data value writable enumerable false
  | accessor get set enumerable _ => accessor get set enumerable false

/-- A property that cannot change any more, but for what its getter does. -/
def Property.frozen : Property → Property
  | data value _ enumerable _ => data value false enumerable false
  | accessor get set enumerable _ => accessor get set enumerable false

namespace Properties

variable {ps : Properties} {key : String} {p : Property} {f g : Property → Property}

/-- Every property changed in its place. -/
def mapValues (f : Property → Property) (ps : Properties) : Properties :=
  ps.map fun x => (x.1, f x.2)

@[simp]
theorem keys_mapValues (f : Property → Property) (ps : Properties) :
    (ps.mapValues f).keys = ps.keys := by
  rw [keys, mapValues, List.map_map]
  rfl

@[simp]
theorem get?_mapValues (f : Property → Property) (ps : Properties) (key : String) :
    (ps.mapValues f).get? key = (ps.get? key).map f := by
  induction ps with
  | nil => rfl
  | cons x rest ih =>
    obtain ⟨k, q⟩ := x
    rw [mapValues, List.map_cons, get?_cons, get?_cons]
    by_cases hk : k = key
    · rw [if_pos hk, if_pos hk, Option.map_some]
    · rw [if_neg hk, if_neg hk, ← ih, mapValues]

/-- An insertion replaces the property of the first entry that has the key. -/
theorem insert_append_cons {done rest : Properties} {q : Property} (h : key ∉ keys done) :
    insert (done ++ (key, p) :: rest) key q = done ++ (key, q) :: rest := by
  induction done with
  | nil => rw [List.nil_append, insert, if_pos rfl, List.nil_append]
  | cons x done ih =>
    obtain ⟨k, _⟩ := x
    obtain ⟨hk, hdone⟩ := not_or.mp fun h' => h (List.mem_cons.mpr h')
    rw [List.cons_append, insert, if_neg (Ne.symm hk), ih hdone, List.cons_append]

end Properties

namespace ObjectRecord

variable {κ : Type} {o : ObjectRecord κ} {f g : Property → Property}

/-- The object with every own property changed in its place, and closed to new ones. -/
def closedBy (f : Property → Property) (o : ObjectRecord κ) : ObjectRecord κ :=
  { o with properties := o.properties.mapValues f, extensible := false }

@[simp]
theorem properties_closedBy : (o.closedBy f).properties = o.properties.mapValues f := rfl

@[simp]
theorem own?_closedBy (key : String) : (o.closedBy f).own? key = (o.own? key).map f :=
  Properties.get?_mapValues f _ key

theorem closedBy_closedBy : (o.closedBy f).closedBy g = o.closedBy (g ∘ f) := by
  simp only [closedBy, Properties.mapValues, List.map_map]
  rfl

section

variable (hl : o.LengthCovers) (hf : ∀ v w e c, ∃ w' c', f (.data v w e c) = .data v w' e c')

include hl hf

/-- An own property that keeps its value keeps the length of an array above its indices. -/
theorem LengthCovers.insert_kept {key : String} {p : Property} (hp : o.own? key = some p) :
    (o.insert key (f p)).LengthCovers := by
  intro harray
  obtain ⟨x, w, e, c, hlength, hbelow⟩ := hl harray
  have hbelow' : (o.insert key (f p)).IndicesBelow x.clampUint32 :=
    indicesBelow_insert.mpr ⟨hbelow, hbelow key (mem_keys_of_own? hp)⟩
  by_cases hkey : "length" = key
  · subst hkey
    cases hlength.symm.trans hp
    obtain ⟨w', c', hfx⟩ := hf (.number x) w e c
    exact ⟨x, w', e, c', by rw [own?_insert_self, hfx], hbelow'⟩
  · exact ⟨x, w, e, c, (own?_insert_of_ne hkey).trans hlength, hbelow'⟩

/-- So do all own properties that keep their values. -/
theorem LengthCovers.closedBy : (o.closedBy f).LengthCovers := by
  intro harray
  obtain ⟨x, w, e, c, hlength, hbelow⟩ := hl harray
  obtain ⟨w', c', hfx⟩ := hf (.number x) w e c
  refine ⟨x, w', e, c', by rw [own?_closedBy, hlength, Option.map_some, hfx], ?_⟩
  rw [IndicesBelow, properties_closedBy, Properties.keys_mapValues]
  exact hbelow

end

end ObjectRecord

namespace World

variable {κ σ : Type} {w : World κ σ} {r : Ref} {o : ObjectRecord κ} {f : Property → Property}

/-- The object at `r` closed, and all else as it was. -/
def closeBy (w : World κ σ) (r : Ref) (f : Property → Property) : World κ σ :=
  { w with heap := w.heap.update r (·.closedBy f) }

theorem getElem?_closeBy (ho : w.heap[r]? = some o) (f : Property → Property) :
    (w.closeBy r f).heap[r]? = some (o.closedBy f) := Heap.getElem?_update_self ho _

theorem closeBy_closeBy (w : World κ σ) (r : Ref) (f g : Property → Property) :
    (w.closeBy r f).closeBy r g = w.closeBy r (g ∘ f) := by
  simp only [closeBy, Heap.update_update, ObjectRecord.closedBy_closedBy]

end World

/-! ## Descriptors that are accepted -/

/-- Descriptors that give no value, and turn every property they are made for into its `f`. -/
structure Descriptor.Closes (describe : Option Property → Descriptor) (f : Property → Property) :
    Prop where
  value (p : Option Property) : (describe p).value = none
  applyTo? (extensible : Bool) (p : Property) :
    (describe (some p)).applyTo? extensible (some p) = some (f p)
  keeps (v : Value) (w e c : Bool) : ∃ w' c', f (.data v w e c) = .data v w' e c'

theorem Eval.closes_sealing : Descriptor.Closes sealing .sealed where
  value _ := rfl
  applyTo? extensible p := by
    cases p with
    | data v w e c => cases c <;> rfl
    | accessor g s e c => cases c <;> rfl
  keeps v w e _ := ⟨w, false, rfl⟩

theorem Eval.closes_freezing : Descriptor.Closes freezing .frozen where
  value _ := rfl
  applyTo? extensible p := by
    cases p with
    | data v w e c => cases w <;> cases c <;> rfl
    | accessor g s e c => cases c <;> rfl
  keeps v _ e _ := ⟨false, false, rfl⟩

namespace Eval

variable {κ σ : Type} (caller : Caller κ σ) {w : World κ σ} {r : Ref} {o : ObjectRecord κ}
  {describe : Option Property → Descriptor} {f : Property → Property}

/-! ## The loop over the own keys -/

/-- One definition of the loop is accepted and replaces the property in its place. -/
theorem defineOwn_closing (hd : Descriptor.Closes describe f) {key : String} {p : Property}
    (ho : w.heap[r]? = some o) (hl : o.LengthCovers) (hp : o.own? key = some p) :
    defineOwn caller (.object r) key (describe (some p)) true w =
      .ok true { w with heap := w.heap.update r (·.insert key (f p)) } := by
  have hdefine : w.heap.define r key (describe (some p)) =
      (true, w.heap.update r (·.insert key (f p))) := by
    have happly := hd.applyTo? o.extensible p
    rw [← hp] at happly
    rcases Heap.define_cases ho key (describe (o.own? key)) with ⟨hn, -⟩ | ⟨q, hq, he⟩
    · rw [happly] at hn
      cases hn
    · cases happly.symm.trans hq
      rw [← hp, he]
  have hby := defineBy_of_own caller ho hl (ObjectRecord.mem_keys_of_own? hp)
    (hd.value (some p))
  rw [defineOwn_strict, defineOwn_lenient, hby, change, hdefine]

/--
The loop over the keys that remain. The entries before them are done already, and the length of an
array stays above its indices from one definition to the next.
-/
theorem closeAll_eq (hd : Descriptor.Closes describe f) : ∀ {rest done : Properties}
    {w : World κ σ} {o : ObjectRecord κ}, w.heap[r]? = some o → o.properties = done ++ rest →
      o.properties.keys.Nodup → o.LengthCovers →
      defineAll caller (.object r) describe rest.keys w = .ok () { w with
        heap := w.heap.update r fun o => { o with properties := done ++ rest.mapValues f } }
  | [], done, w, o, ho, hps, _, _ => by
    have hsame : { o with properties := done ++ Properties.mapValues f [] } = o := by
      rw [Properties.mapValues, List.map_nil, ← hps]
    rw [Heap.update_eq ho, hsame, Heap.update_self ho]
    rfl
  | (key, p) :: rest, done, w, o, ho, hps, hkeys, hl => by
    have hkey : key ∉ Properties.keys done := by
      rw [hps, Properties.keys, List.map_append, List.map_cons] at hkeys
      exact fun hmem => (List.nodup_append.mp hkeys).2.2 _ hmem _ List.mem_cons_self rfl
    have hp : o.own? key = some p := Properties.get?_of_mem hkeys (by
      rw [hps]
      exact List.mem_append_right _ List.mem_cons_self)
    have ho' := Heap.getElem?_update_self ho (·.insert key (f p))
    have hps' : (o.insert key (f p)).properties = done ++ [(key, f p)] ++ rest := by
      rw [ObjectRecord.properties_insert, hps, Properties.insert_append_cons hkey,
        List.append_assoc, List.singleton_append]
    have hkeys' : (o.insert key (f p)).properties.keys.Nodup := by
      rwa [ObjectRecord.properties_insert, Properties.keys_insert,
        if_pos (ObjectRecord.mem_keys_of_own? hp)]
    have hl' : (o.insert key (f p)).LengthCovers := hl.insert_kept hd.keeps hp
    have hrest := closeAll_eq hd (w := { w with heap := w.heap.update r (·.insert key (f p)) })
      ho' hps' hkeys' hl'
    have hown : w.heap.own? (.object r) key = some p := (Heap.own?_eq ho).trans hp
    show (defineOwn caller (.object r) key (describe (w.heap.own? (.object r) key)) true >>=
      fun _ => defineAll caller (.object r) describe (Properties.keys rest)) w = _
    rw [hown, bind_of_ok (defineOwn_closing caller hd ho hl hp), hrest, Heap.update_update,
      List.append_assoc]
    rfl

/-- What sealing and freezing have in common: the loop, and then no more new properties. -/
theorem close_eq (hd : Descriptor.Closes describe f) (ho : w.heap[r]? = some o)
    (hkeys : o.properties.keys.Nodup) (hl : o.LengthCovers) :
    (do defineAll caller (.object r) describe (← look (·.ownKeys (Value.object r)))
        preventExtensions (.object r)
        pure (Value.object r)) w = .ok (.object r) (w.closeBy r f) := by
  have hown : w.heap.ownKeys (.object r) = o.properties.keys := by
    rw [Heap.ownKeys, Heap.record?, ho]
    rfl
  have hall := closeAll_eq caller hd ho (List.nil_append _).symm hkeys hl
  show (defineAll caller (.object r) describe (w.heap.ownKeys (.object r)) >>= fun _ => _) w = _
  have hclose (w' : World κ σ) : (preventExtensions (.object r) >>= fun _ => pure (.object r)) w' =
      .ok (Value.object r) { w' with
        heap := w'.heap.update r fun o => { o with extensible := false } } := rfl
  rw [hown, bind_of_ok hall, hclose, Heap.update_update, World.closeBy, Heap.update_eq ho,
    Heap.update_eq ho (·.closedBy f)]
  rfl

theorem makeSealed_eq (ho : w.heap[r]? = some o) (hkeys : o.properties.keys.Nodup)
    (hl : o.LengthCovers) :
    makeSealed caller (.object r) w = .ok (.object r) (w.closeBy r .sealed) :=
  close_eq caller closes_sealing ho hkeys hl

theorem makeFrozen_eq (ho : w.heap[r]? = some o) (hkeys : o.properties.keys.Nodup)
    (hl : o.LengthCovers) :
    makeFrozen caller (.object r) w = .ok (.object r) (w.closeBy r .frozen) :=
  close_eq caller closes_freezing ho hkeys hl

/-! ## The tests -/

theorem any_own_eq_false (h : Heap κ) (v : Value) (test : Property → Bool) :
    ((h.ownKeys v).any fun key => ((h.own? v key).map test).getD false) = false ↔
      ∀ key p, h.own? v key = some p → test p = false := by
  rw [List.any_eq_false]
  constructor
  · intro hall key p hp
    obtain ⟨o, ho, hown⟩ := Option.bind_eq_some_iff.mp hp
    have hkey : key ∈ h.ownKeys v := by
      rw [Heap.ownKeys, ho]
      exact ObjectRecord.mem_keys_of_own? hown
    simpa [hp] using hall key hkey
  · intro hall key _
    cases hp : h.own? v key with
    | none => exact Bool.false_ne_true
    | some p => simpa using hall key p hp

/-- Whether all own properties of an object fail a test and no new ones may be added. -/
theorem test_iff {function : String} (test : Property → Bool) (x : Value) (w : World κ σ) :
    (do argumentObject function x
        look fun h => !((h.ownKeys x).any fun key => ((h.own? x key).map test).getD false) &&
          !h.isExtensible x) w = .ok true w ↔
      x.isObject = true ∧ w.heap.isExtensible x = false ∧
        ∀ key p, w.heap.own? x key = some p → test p = false := by
  cases hx : x.isObject with
  | false =>
    have herror : argumentObject function x w =
        .error (.threw (.staticOnPrimitive function)) w := by
      rw [argumentObject, hx]
      rfl
    rw [bind_of_error herror]
    exact iff_of_false (fun h => by cases h) fun h => Bool.false_ne_true h.1
  | true =>
    have hobject : argumentObject function x w = .ok () w := by
      rw [argumentObject, hx]
      rfl
    rw [bind_of_ok hobject, look, EStateM.Result.ok.injEq, and_iff_left rfl, Bool.and_eq_true,
      Bool.not_eq_true', Bool.not_eq_true', any_own_eq_false]
    rw [and_comm, and_iff_right rfl]

theorem isSealed_iff {x : Value} : isSealed x w = .ok true w ↔
    x.isObject = true ∧ w.heap.isExtensible x = false ∧
      ∀ key p, w.heap.own? x key = some p → p.configurable = false :=
  test_iff _ x w

/-- An object is frozen exactly if it is sealed and none of its properties is writable. -/
theorem isFrozen_iff_isSealed {x : Value} : isFrozen x w = .ok true w ↔
    isSealed x w = .ok true w ∧ ∀ key p, w.heap.own? x key = some p → p.writable = false := by
  have hfrozen : isFrozen x w = .ok true w ↔ x.isObject = true ∧ w.heap.isExtensible x = false ∧
      ∀ key p, w.heap.own? x key = some p → (p.writable || p.configurable) = false :=
    test_iff _ x w
  simp only [hfrozen, isSealed_iff, Bool.or_eq_false_iff]
  constructor
  · rintro ⟨hx, he, hall⟩
    exact ⟨⟨hx, he, fun key p hp => (hall key p hp).2⟩, fun key p hp => (hall key p hp).1⟩
  · rintro ⟨⟨hx, he, hc⟩, hw⟩
    exact ⟨hx, he, fun key p hp => ⟨hw key p hp, hc key p hp⟩⟩

section

variable (ho : w.heap[r]? = some o)

include ho

theorem own?_closeBy {key : String} {q : Property} :
    (w.closeBy r f).heap.own? (.object r) key = some q ↔ ∃ p, o.own? key = some p ∧ f p = q := by
  rw [Heap.own?_eq (World.getElem?_closeBy ho f), ObjectRecord.own?_closedBy,
    Option.map_eq_some_iff]

theorem isSealed_closeBy (hf : ∀ p, (f p).configurable = false) :
    isSealed (.object r) (w.closeBy r f) = .ok true (w.closeBy r f) := by
  refine isSealed_iff.mpr ⟨rfl, ?_, fun key q hq => ?_⟩
  · rw [Heap.isExtensible, Heap.record?, World.getElem?_closeBy ho f]
    rfl
  · obtain ⟨p, -, rfl⟩ := (own?_closeBy ho).mp hq
    exact hf p

theorem isFrozen_closeBy (hc : ∀ p, (f p).configurable = false)
    (hw : ∀ p, (f p).writable = false) :
    isFrozen (.object r) (w.closeBy r f) = .ok true (w.closeBy r f) := by
  refine isFrozen_iff_isSealed.mpr ⟨isSealed_closeBy ho hc, fun key q hq => ?_⟩
  obtain ⟨p, -, rfl⟩ := (own?_closeBy ho).mp hq
  exact hw p

end

/-! ## Both functions -/

/--
**Sealing and freezing succeed and do what they promise.** For an object whose keys are distinct,
as those of all objects are that user code can reach, and if it is an array, whose length covers its
indices, wherever the length stands among the keys:

* both return the object and change it alone: its properties become `Property.sealed` or
  `Property.frozen` in their places, and it is closed. This holds for every way to run functions,
  so none is run;
* it is sealed after either, and frozen after freezing;
* doing one of them again changes nothing, and freezing in addition to sealing, before or after it,
  comes to freezing alone;
* any value is frozen exactly if it is sealed and has no writable property.
-/
theorem seals_and_freezes (ho : w.heap[r]? = some o) (hkeys : o.properties.keys.Nodup)
    (hl : o.LengthCovers) :
    let v : Value := .object r
    let ws := w.closeBy r .sealed
    let wf := w.closeBy r .frozen
    (∀ caller, makeSealed caller v w = .ok v ws ∧ makeFrozen caller v w = .ok v wf) ∧
    (isSealed v ws = .ok true ws ∧ isSealed v wf = .ok true wf ∧ isFrozen v wf = .ok true wf) ∧
    (∀ caller, makeSealed caller v ws = .ok v ws ∧ makeFrozen caller v wf = .ok v wf ∧
      makeFrozen caller v ws = .ok v wf ∧ makeSealed caller v wf = .ok v wf) ∧
    ∀ x, isFrozen x w = .ok true w ↔
      isSealed x w = .ok true w ∧ ∀ key p, w.heap.own? x key = some p → p.writable = false := by
  intro v ws wf
  have hpermanent (p : Property) : p.sealed.configurable = false ∧ p.frozen.configurable = false ∧
      p.frozen.writable = false := by
    cases p <;> exact ⟨rfl, rfl, rfl⟩
  have hclosed := World.getElem?_closeBy ho
  have hdistinct (f : Property → Property) : (o.closedBy f).properties.keys.Nodup := by
    rwa [ObjectRecord.properties_closedBy, Properties.keys_mapValues]
  have hcomp : Property.sealed ∘ Property.sealed = .sealed ∧
      Property.frozen ∘ Property.frozen = .frozen ∧
      Property.frozen ∘ Property.sealed = .frozen ∧
      Property.sealed ∘ Property.frozen = .frozen := by
    refine ⟨?_, ?_, ?_, ?_⟩ <;> (funext p; cases p <;> rfl)
  obtain ⟨hss, hff, hfs, hsf⟩ := hcomp
  have hls : (o.closedBy .sealed).LengthCovers := hl.closedBy closes_sealing.keeps
  have hlf : (o.closedBy .frozen).LengthCovers := hl.closedBy closes_freezing.keeps
  refine ⟨fun caller => ?_, ?_, fun caller => ?_, fun x => isFrozen_iff_isSealed⟩
  · exact ⟨makeSealed_eq caller ho hkeys hl, makeFrozen_eq caller ho hkeys hl⟩
  · exact ⟨isSealed_closeBy ho fun p => (hpermanent p).1,
      isSealed_closeBy ho fun p => (hpermanent p).2.1,
      isFrozen_closeBy ho (fun p => (hpermanent p).2.1) fun p => (hpermanent p).2.2⟩
  · have hs := makeSealed_eq caller (hclosed .sealed) (hdistinct .sealed) hls
    have hf := makeFrozen_eq caller (hclosed .frozen) (hdistinct .frozen) hlf
    have hf' := makeFrozen_eq caller (hclosed .sealed) (hdistinct .sealed) hls
    have hs' := makeSealed_eq caller (hclosed .frozen) (hdistinct .frozen) hlf
    rw [World.closeBy_closeBy] at hs hf hf' hs'
    rw [hss] at hs
    rw [hff] at hf
    rw [hfs] at hf'
    rw [hsf] at hs'
    exact ⟨hs, hf, hf', hs'⟩

/--
An array whose length is created before its elements, so that freezing makes it read-only first.
One element has a getter, and no function can be run.
-/
theorem seals_and_freezes_array :
    let properties (w c : Bool) : Properties :=
      [("length", .data (.number (.ofNat 2)) w false false),
        ("1", .accessor (some (.object 0)) none true c), ("0", .data .null w true c)]
    let o : ObjectRecord Unit := { kind := .array, properties := properties true true }
    let w : World Unit Unit := ⟨#[o], ()⟩
    let wf : World Unit Unit :=
      ⟨#[{ o with properties := properties false false, extensible := false }], ()⟩
    let caller : Caller Unit Unit := fun _ _ _ => throw .exhausted
    o.properties.keys.Nodup ∧ o.LengthCovers ∧
      makeFrozen caller (.object 0) w = .ok (.object 0) wf ∧
      isFrozen (.object 0) wf = .ok true wf ∧
      makeSealed caller (.object 0) wf = .ok (.object 0) wf := by
  intro properties o w wf caller
  have hkeys : o.properties.keys.Nodup := by decide +kernel
  have hbelow : o.IndicesBelow 2 := by
    intro key hkey i hi
    have hall : ∀ key ∈ o.properties.keys, (arrayIndex? key).all (· < 2) := by decide +kernel
    simpa [hi] using hall key hkey
  have hl : o.LengthCovers := fun _ => by
    refine ⟨.ofNat 2, true, false, false, rfl, ?_⟩
    rw [Double.clampUint32_ofNat (by decide +kernel)]
    exact hbelow
  obtain ⟨hmake, ⟨-, -, hfrozen⟩, hagain, -⟩ := seals_and_freezes (w := w) (r := 0) rfl hkeys hl
  exact ⟨hkeys, hl, (hmake caller).2, hfrozen, (hagain caller).2.2.2⟩

end Eval

end Es5
