import Es5.Proofs.Pinned

/-!
# Refused definitions

A definition is refused for one of a few reasons, each of which lasts: an object that is closed
stays closed, a permanent property only changes as it admits, a length that is read-only is fixed,
and an element that blocks a truncation stays where it is.

* `ObjectRecord.Refuses`, `ObjectRecord.RefusesLength`, `ObjectRecord.Rejects`: the reasons.
* `Eval.rejects_of_result?`, `Eval.result?_of_rejects`: these are the reasons for a refusal.
* `ObjectRecord.Rejects.persists`: the reasons last.
* **`World.Reaches.stays_refused`**: a definition that is refused stays refused.
-/

namespace Es5

variable {κ σ : Type}

/-! ## Definitions of single properties -/

theorem Descriptor.configurable_of_refused {d : Descriptor} {extensible : Bool} {p : Property}
    (h : d.applyTo? extensible (some p) = none) : p.configurable = false := by
  rw [applyTo?_some] at h
  cases hc : p.configurable with
  | false => rfl
  | true =>
    have hperm : d.permittedOn p = true := by rw [permittedOn, hc, Bool.true_or]
    rw [if_pos hperm] at h
    split at h <;> cases h

/-- A definition over a permanent property that is refused is so after every admitted change. -/
theorem Property.Admits.refused {d : Descriptor} {extensible extensible' : Bool}
    {p q : Property} (hpq : p.Admits q) (h : d.applyTo? extensible (some p) = none) :
    d.applyTo? extensible' (some q) = none := by
  have hc := Descriptor.configurable_of_refused h
  cases p with
  | accessor g s e c =>
    cases hc
    cases hpq
    rw [Descriptor.applyTo?_some] at h ⊢
    exact h
  | data v w e c =>
    cases hc
    obtain ⟨v', w', rfl, hw, hv⟩ := hpq
    rw [Descriptor.applyTo?_data] at h ⊢
    have hperm : ¬d.permittedOn (.data v w e false) = true := fun hp => by
      rw [if_pos hp] at h
      cases h
    refine if_neg fun hp => hperm ?_
    cases w with
    | false =>
      have hw' : w' = false := by
        cases w' with
        | false => rfl
        | true => exact absurd (hw rfl) (by decide)
      rw [hv rfl, hw'] at hp
      exact hp
    | true =>
      obtain ⟨hconf, henum, hrest⟩ := (Descriptor.permittedOn_permanent rfl).mp hp
      refine (Descriptor.permittedOn_permanent rfl).mpr ⟨hconf, henum, ?_⟩
      exact hrest.imp_right fun hkept => ⟨hkept.1, rfl⟩

namespace ObjectRecord

/-- The rule for single properties refuses a definition. -/
def Refuses (o : ObjectRecord κ) (key : String) (d : Descriptor) : Prop :=
  d.applyTo? o.extensible (o.own? key) = none

variable {o o' : ObjectRecord κ} {key : String} {d : Descriptor} {i m n : Nat}

theorem Binds.refuses (hb : o.Binds o') (h : o.Refuses key d) : o'.Refuses key d := by
  unfold Refuses at h ⊢
  cases hown : o.own? key with
  | none =>
    rw [hown, Descriptor.applyTo?] at h
    have hext : o.extensible = false := by
      cases he : o.extensible with
      | false => rfl
      | true =>
        rw [he, if_pos rfl] at h
        cases h
    obtain ⟨hext', hkeys⟩ := hb.closed hext
    rw [hkeys key hown, hext', Descriptor.applyTo?, if_neg (by decide)]
  | some p =>
    rw [hown] at h
    obtain ⟨q, hq, hpq⟩ := hb.fixed key p hown (Descriptor.configurable_of_refused h)
    rw [hq]
    exact hpq.refused h

/-! ## Reasons for a refusal -/

/-- The rule for lengths refuses the length `m`. -/
def RefusesLength (o : ObjectRecord κ) (m : Nat) (d : Descriptor) : Prop :=
  ¬d.MayResize true ∨ (∃ n, o.LengthIs n false ∧ (m ≠ n ∨ d.writable = some true)) ∨
    ∃ i, m ≤ i ∧ o.PinsBelow i

/-- Why a definition is refused. -/
inductive Rejects (o : ObjectRecord κ) (key : String) (d : Descriptor) : Prop where
  /-- The property itself does not admit it, or the object is closed. -/
  | property (hd : o.kind = .array → key = "length" → d.value = none) (h : o.Refuses key d)
  /-- It would lengthen an array whose length is read-only. -/
  | element (n i : Nat) (hl : o.LengthIs n false) (hkey : arrayIndex? key = some i) (hi : n ≤ i)
  /-- It gives an array a length that the array cannot take. -/
  | length (v : Value) (m : Nat) (hk : o.kind = .array) (hkey : key = "length")
    (hd : d.value = some v) (hm : v.length? = some m) (h : o.RefusesLength m d)

/-- A length that is read-only is fixed. -/
theorem Binds.lengthIs (hb : o.Binds o') (hk : o'.kind = o.kind) (hl : o.LengthIs n false) :
    o'.LengthIs n false := by
  obtain ⟨q, hq, hpq⟩ := hb.fixed "length" _ hl.own rfl
  rw [Property.eq_of_admits hpq rfl rfl] at hq
  exact ⟨hk.trans hl.kind, hq, hl.le⟩

/-- **The reasons for a refusal last.** -/
theorem Rejects.persists (h : o.Rejects key d) (hk : o'.kind = o.kind) (hb : o.Binds o')
    (hpins : ∀ i, o.PinsBelow i → o'.PinsBelow i) : o'.Rejects key d := by
  cases h with
  | property hd h => exact .property (fun ha => hd (hk.symm.trans ha)) (hb.refuses h)
  | element n i hl hkey hi => exact .element n i (hb.lengthIs hk hl) hkey hi
  | length v m ha hkey hd hm h =>
    refine .length v m (hk.trans ha) hkey hd hm ?_
    rcases h with hflags | ⟨n, hl, hfixed⟩ | ⟨i, hi, hp⟩
    · exact Or.inl hflags
    · exact Or.inr (Or.inl ⟨n, hb.lengthIs hk hl, hfixed⟩)
    · exact Or.inr (Or.inr ⟨i, hi, hpins i hp⟩)

/-- The class of an object does not change. -/
theorem kind_evolution : ObjectRecord.Evolution fun o o' : ObjectRecord κ => o'.kind = o.kind where
  refl _ := rfl
  trans h₁₂ h₂₃ := h₂₃.trans h₁₂
  close _ := rfl
  insert _ := rfl
  erase _ _ := rfl

end ObjectRecord

/-! ## Definitions on a record -/

namespace Heap

variable {h : Heap κ} {r : Ref} {o : ObjectRecord κ} {key : String} {d : Descriptor} {i n : Nat}
  {w : Bool}

theorem define_eq_false_iff (ho : h[r]? = some o) :
    (h.define r key d).1 = false ↔ o.Refuses key d := by
  rcases define_cases ho key d with ⟨hn, he⟩ | ⟨p, hp, he⟩
  · rw [he]
    exact ⟨fun _ => hn, fun _ => rfl⟩
  · rw [he, ObjectRecord.Refuses, hp]
    exact iff_of_false (fun hf => nomatch hf) (fun hf => nomatch hf)

theorem defineElement_eq_false_iff (ho : h[r]? = some o) (hl : o.LengthIs n w) :
    (h.defineElement r i key d).1 = false ↔ n ≤ i ∧ w = false ∨ o.Refuses key d := by
  rw [← define_eq_false_iff ho, defineElement, arrayLength_of_lengthIs ho hl]
  dsimp only
  split
  · rename_i hfixed
    simp only [Bool.and_eq_true, decide_eq_true_eq, Bool.not_eq_true'] at hfixed
    simp [hfixed]
  · rename_i hfree
    simp only [Bool.and_eq_true, decide_eq_true_eq, Bool.not_eq_true'] at hfree
    rcases h.define r key d with ⟨_ | _, h'⟩
    · simp
    · simp only [hfree, Bool.true_eq_false, or_self, iff_false]
      split <;> simp

end Heap

namespace Eval

variable {caller : Caller κ σ} {w : World κ σ} {r : Ref} {o : ObjectRecord κ} {key : String}
  {d : Descriptor} {i n : Nat} {writable : Bool}

theorem result?_defineOwn (ho : w.heap[r]? = some o) :
    result? (defineOwn caller (.object r) key d false) w =
      if o.kind = .array then result? (defineOnArray caller r key d) w
      else some (w.heap.define r key d).1 := by
  have hk : w.heap.kind? (.object r) = some o.kind := by rw [Heap.kind?, Heap.record?, ho]; rfl
  rw [result?, defineOwn_lenient, defineBy, hk]
  by_cases ha : o.kind = .array
  · rw [if_pos (congrArg some ha), if_pos ha, result?]
  · rw [if_neg (fun he => ha (Option.some.inj he)), if_neg ha]
    rfl

theorem result?_defineElement (hi : arrayIndex? key = some i) :
    result? (defineOnArray caller r key d) w = some (w.heap.defineElement r i key d).1 := by
  rw [defineOnArray, if_neg (ne_length_of_arrayIndex? hi), hi]
  rfl

/-- A definition on an array that concerns no element and gives no length. -/
theorem result?_defineOther (hd : key = "length" → d.value = none) (hi : arrayIndex? key = none) :
    result? (defineOnArray caller r key d) w = some (w.heap.define r key d).1 := by
  rw [defineOnArray]
  split
  · rw [hd ‹_›]
    rfl
  · rw [hi]
    rfl

theorem result?_defineLength {v : Value} (hd : d.value = some v) (hv : v.isObject = false) :
    result? (defineOnArray caller r "length" d) w =
      v.length?.map fun m => (w.heap.setLength r (w.heap.arrayLength r) m d).1 := by
  have hconverted : lengthOf caller v w = _ := lengthOf_plain hv
  rw [result?, defineOnArray_length hd]
  cases hm : v.length? with
  | none =>
    rw [hm] at hconverted
    rw [bind_of_error hconverted]
    rfl
  | some m =>
    rw [hm] at hconverted
    rw [bind_of_ok hconverted]
    rfl

theorem length?_le {v : Value} {m : Nat} (h : v.length? = some m) : m ≤ maxLength := by
  rw [Value.length?] at h
  split at h
  · cases h
    exact v.plainNumber.toUint32_le
  · cases h

/-- The reasons for which a definition on an array is refused whose length is above its indices. -/
theorem rejects_of_defineOnArray (ho : w.heap[r]? = some o) (hl : o.LengthIs n writable)
    (hbelow : o.IndicesBelow n)
    (hplain : key = "length" → ∀ v, d.value = some v → v.isObject = false)
    (h : result? (defineOnArray caller r key d) w = some false) : o.Rejects key d := by
  by_cases hgives : key = "length" ∧ d.value.isSome
  · obtain ⟨rfl, hsome⟩ := hgives
    obtain ⟨v, hv⟩ := Option.isSome_iff_exists.mp hsome
    rw [result?_defineLength hv (hplain rfl v hv), Heap.arrayLength_of_lengthIs ho hl] at h
    obtain ⟨m, hm, hf⟩ := Option.map_eq_some_iff.mp h
    refine .length v m hl.kind rfl hv hm ?_
    rcases (Heap.setLength_eq_false_iff ho hl (length?_le hm) d).mp hf with
      hflags | ⟨rfl, hfixed⟩ | ⟨-, i, hi, hlt, hpins⟩
    · exact Or.inl hflags
    · exact Or.inr (Or.inl ⟨n, hl, hfixed⟩)
    · exact Or.inr (Or.inr ⟨i, hi, n, writable, hl, hpins.lt hlt hbelow, hpins⟩)
  · have hd : key = "length" → d.value = none := fun hkey => by
      simpa [hkey] using hgives
    cases hi : arrayIndex? key with
    | none =>
      rw [result?_defineOther hd hi] at h
      exact .property (fun _ => hd) ((Heap.define_eq_false_iff ho).mp (Option.some.inj h))
    | some i =>
      rw [result?_defineElement hi] at h
      rcases (Heap.defineElement_eq_false_iff ho hl).mp (Option.some.inj h) with ⟨hni, rfl⟩ | hr
      · exact .element n i hl hi hni
      · exact .property (fun _ => hd) hr

/-- A definition on an array is refused for each of the reasons. -/
theorem defineOnArray_of_rejects (ho : w.heap[r]? = some o) (hl : o.LengthIs n writable)
    (hplain : key = "length" → ∀ v, d.value = some v → v.isObject = false)
    (h : o.Rejects key d) : result? (defineOnArray caller r key d) w = some false := by
  cases h with
  | property hd h =>
    cases hi : arrayIndex? key with
    | none =>
      rw [result?_defineOther (hd hl.kind) hi, (Heap.define_eq_false_iff ho).mpr h]
    | some i =>
      rw [result?_defineElement hi, (Heap.defineElement_eq_false_iff ho hl).mpr (Or.inr h)]
  | element n' i hl' hkey hi =>
    obtain ⟨rfl, rfl⟩ := hl.eq hl'
    rw [result?_defineElement hkey,
      (Heap.defineElement_eq_false_iff ho hl).mpr (Or.inl ⟨hi, rfl⟩)]
  | length v m _ hkey hd hm h =>
    subst hkey
    rw [result?_defineLength hd (hplain rfl v hd), hm, Option.map_some,
      Heap.arrayLength_of_lengthIs ho hl]
    refine congrArg some ((Heap.setLength_eq_false_iff ho hl (length?_le hm) d).mpr ?_)
    rcases h with hflags | ⟨n', hl', hfixed⟩ | ⟨i, hi, hp⟩
    · exact Or.inl hflags
    · obtain ⟨rfl, rfl⟩ := hl.eq hl'
      exact Or.inr (Or.inl ⟨rfl, hfixed⟩)
    · have hlt := hp.lt_maxLength
      obtain ⟨n', w', hl', hin, hpins⟩ := hp
      obtain ⟨rfl, rfl⟩ := hl.eq hl'
      exact Or.inr (Or.inr ⟨by omega, i, hi, hlt, hpins⟩)

theorem rejects_of_result? (ho : w.heap[r]? = some o) (hcovered : o.kind = .array → o.IsCovered)
    (hplain : o.kind = .array → key = "length" → ∀ v, d.value = some v → v.isObject = false)
    (h : result? (defineOwn caller (.object r) key d false) w = some false) :
    o.Rejects key d := by
  rw [result?_defineOwn ho] at h
  by_cases ha : o.kind = .array
  · obtain ⟨n, writable, hl, hbelow⟩ := hcovered ha
    rw [if_pos ha] at h
    exact rejects_of_defineOnArray ho hl hbelow (hplain ha) h
  · rw [if_neg ha] at h
    exact .property (fun hk => absurd hk ha)
      ((Heap.define_eq_false_iff ho).mp (Option.some.inj h))

theorem result?_of_rejects (ho : w.heap[r]? = some o)
    (hlength : o.kind = .array → ∃ n writable, o.LengthIs n writable)
    (hplain : o.kind = .array → key = "length" → ∀ v, d.value = some v → v.isObject = false)
    (h : o.Rejects key d) :
    result? (defineOwn caller (.object r) key d false) w = some false := by
  rw [result?_defineOwn ho]
  by_cases ha : o.kind = .array
  · obtain ⟨n, writable, hl⟩ := hlength ha
    rw [if_pos ha]
    exact defineOnArray_of_rejects ho hl (hplain ha) h
  · rw [if_neg ha]
    cases h with
    | property _ h => rw [(Heap.define_eq_false_iff ho).mpr h]
    | element _ _ hl => exact absurd hl.kind ha
    | length _ _ hk => exact absurd hk ha

end Eval

/-! ## Refused definitions stay refused -/

/--
**A definition that is refused stays refused** in every world that user code reaches without direct
edits, whatever functions are called meanwhile. The length of an array is required to be above its
indices, and to be given as a plain value.
-/
theorem World.Reaches.stays_refused {w w' : World (Behaviour σ) σ} (hreach : w.Reaches w')
    {r : Ref} {o : ObjectRecord (Behaviour σ)} (ho : w.heap[r]? = some o)
    (hcovered : o.kind = .array → o.IsCovered) {key : String} {d : Descriptor}
    (hplain : o.kind = .array → key = "length" → ∀ v, d.value = some v → v.isObject = false)
    {caller : Caller (Behaviour σ) σ}
    (h : Eval.result? (Eval.defineOwn caller (.object r) key d false) w = some false)
    (caller' : Caller (Behaviour σ) σ) :
    Eval.result? (Eval.defineOwn caller' (.object r) key d false) w' = some false := by
  obtain ⟨o', ho', hb⟩ := hreach.along (ObjectRecord.binds_evolution.heap _) r o ho
  obtain ⟨o'', ho'', hk⟩ := hreach.along (ObjectRecord.kind_evolution.heap _) r o ho
  cases ho'.symm.trans ho''
  have hpins : ∀ i, o.PinsBelow i → o'.PinsBelow i := fun i hp => by
    obtain ⟨o₂, ho₂, hp₂⟩ := hreach.along (Heap.pinsAt_evolution r i) ⟨o, ho, hp⟩
    cases ho'.symm.trans ho₂
    exact hp₂
  have hlength : o'.kind = .array → ∃ n writable, o'.LengthIs n writable := fun ha => by
    obtain ⟨n, writable, hl, -⟩ := hcovered (hk.symm.trans ha)
    obtain ⟨o₂, n', writable', ho₂, hl', -⟩ :=
      hreach.along (Heap.keepsLength_writes _).evolution r o n writable ho hl
    cases ho'.symm.trans ho₂
    exact ⟨n', writable', hl'⟩
  have hrejects := Eval.rejects_of_result? ho hcovered hplain h
  exact Eval.result?_of_rejects ho' hlength (fun ha => hplain (hk.symm.trans ha))
    (hrejects.persists hk hb hpins)

/-- An array of length three with a permanent element at index one. -/
def blockedWorld : World (Behaviour Unit) Unit :=
  ⟨#[{ kind := .array, properties := [("1", .fixed .null true), ("length", .length 3 true)] }],
    ()⟩

/-- The length zero is refused before and after a run that shortens the array to length two. -/
theorem World.Reaches.stays_refused_blocked :
    let p : Program Unit :=
      .perform (.put (.object 0) "length" (.boolean true) false) fun _ => .done .undefined
    let w := Eval.after (p.run (runBehaviour 0)) blockedWorld
    let m : Run Unit Bool :=
      Eval.defineOwn (runBehaviour 0) (.object 0) "length" { value := some .null } false
    blockedWorld.Reaches w ∧ Eval.result? m blockedWorld = some false ∧
      Eval.result? m w = some false := by
  intro p w m
  have hp : p.Obeys Rule.noEdits 0 blockedWorld := Program.obeys_of_ends (by decide +kernel)
  have hrefused : Eval.result? m blockedWorld = some false := by decide +kernel
  have hbelow : ∀ key ∈ ["1", "length"], (arrayIndex? key).all (· < 3) := by decide +kernel
  have hcovered : ∀ o, blockedWorld.heap[0]? = some o → o.IsCovered := by
    rintro o ⟨⟩
    refine ⟨3, true, ⟨rfl, rfl, by decide +kernel⟩, fun key hkey i hi => ?_⟩
    simpa [hi] using hbelow key hkey
  exact ⟨hp.reaches, hrefused, hp.reaches.stays_refused rfl (fun _ => hcovered _ rfl)
    (fun _ _ v hv => by cases hv; rfl) hrefused (runBehaviour 0)⟩

end Es5
