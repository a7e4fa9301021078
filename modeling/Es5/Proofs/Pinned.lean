import Es5.Proofs.Integrity
import Es5.Proofs.Length

/-!
# Elements that cannot be deleted

A permanent element blocks every truncation below it, so once it is below the length of its array
it stays there. That holds also where lengths are given by code: the length that a new one is
compared with may be an old one, but it was above the element too.

* `ObjectRecord.Pins`, `ObjectRecord.PinsBelow`: a permanent element, below the length.
* `Heap.setLength_eq_false_iff`: when the definition of a length is refused.
* **`Heap.pinsAt_evolution`**: an element that is pinned below the length stays so.
-/

namespace Es5

variable {κ : Type}

namespace ObjectRecord

/-- There is a permanent element at an index. -/
def Pins (o : ObjectRecord κ) (i : Nat) : Prop :=
  ∃ p, (indexKey i, p) ∈ o.properties ∧ p.configurable = false

/-- There is a permanent element at an index below the length. -/
def PinsBelow (o : ObjectRecord κ) (i : Nat) : Prop :=
  ∃ n writable, o.LengthIs n writable ∧ i < n ∧ o.Pins i

variable {o : ObjectRecord κ} {i n : Nat} {w : Bool} {key : String} {p : Property}

theorem Pins.insert {d : Descriptor} (h : o.Pins i)
    (hp : d.applyTo? o.extensible (o.own? key) = some p) : (o.insert key p).Pins i := by
  obtain ⟨q, hq, hc⟩ := h
  rcases Properties.mem_insert_or hq key p with hmem | ⟨hown, hkey⟩
  · exact ⟨q, hmem, hc⟩
  · -- The element itself is redefined, and stays permanent.
    dsimp only at hown hkey
    subst hkey
    have hown' : o.own? (indexKey i) = some q := hown
    rw [hown'] at hp
    exact ⟨p, Properties.mem_of_get? Properties.get?_insert_self,
      (Property.admits_of_applyTo? hc hp).configurable⟩

theorem Pins.erase (h : o.Pins i) (hp : o.own? key = some p) (hc : p.configurable = true) :
    (o.erase key).Pins i := by
  obtain ⟨q, hq, hc'⟩ := h
  rcases Properties.mem_erase_or hq key with hmem | hown
  · exact ⟨q, hmem, hc'⟩
  · have hpq : p = q := Option.some.inj (hp.symm.trans hown)
    rw [hpq, hc'] at hc
    cases hc

theorem Pins.of_erase (h : (o.erase key).Pins i) : o.Pins i := by
  obtain ⟨q, hq, hc⟩ := h
  exact ⟨q, Properties.mem_of_mem_erase hq, hc⟩

/-- Replacing the length leaves the elements. -/
theorem pins_insert_length (hi : i < maxLength) : (o.insert "length" p).Pins i ↔ o.Pins i := by
  have hkey : indexKey i ≠ "length" :=
    ne_length_of_arrayIndex? (arrayIndex?_eq_some_iff.mpr ⟨hi, rfl⟩)
  constructor
  · rintro ⟨q, hq, hc⟩
    rcases Properties.mem_of_mem_insert hq with hmem | he
    · exact ⟨q, hmem, hc⟩
    · exact absurd (congrArg Prod.fst he) hkey
  · rintro ⟨q, hq, hc⟩
    rcases Properties.mem_insert_or hq "length" p with hmem | ⟨-, he⟩
    · exact ⟨q, hmem, hc⟩
    · exact absurd he hkey

theorem pins_evolution (i : Nat) :
    ObjectRecord.Evolution fun o o' : ObjectRecord κ => o.Pins i → o'.Pins i where
  refl _ := id
  trans h₁₂ h₂₃ h := h₂₃ (h₁₂ h)
  close _ h := h
  insert hp h := h.insert hp
  erase hp hc h := h.erase hp hc

theorem Pins.mem_indices (h : o.Pins i) (hi : i < maxLength) : i ∈ o.indices := by
  obtain ⟨p, hp, -⟩ := h
  exact ObjectRecord.mem_indices.mpr
    ⟨indexKey i, List.mem_map_of_mem (f := Prod.fst) hp, arrayIndex?_eq_some_iff.mpr ⟨hi, rfl⟩⟩

theorem Pins.lt (h : o.Pins i) (hi : i < maxLength) (hbelow : o.IndicesBelow n) : i < n :=
  indicesBelow_iff.mp hbelow i (h.mem_indices hi)

theorem PinsBelow.lt_maxLength (h : o.PinsBelow i) : i < maxLength := by
  obtain ⟨n, _, hl, hi, -⟩ := h
  exact Nat.lt_of_lt_of_le hi hl.le

end ObjectRecord

/-! ## Truncations that are blocked -/

namespace Heap

variable {h : Heap κ} {r : Ref} {o : ObjectRecord κ} {i m n : Nat} {w : Bool}

/-- The element that stops a deletion is permanent. -/
theorem pins_of_deleteElements : ∀ (indices : List Nat) {h : Heap κ} {o : ObjectRecord κ},
    h[r]? = some o → (h.deleteElements r indices).1 = some i → i ∈ indices ∧ o.Pins i
  | [], _, _, _, hs => nomatch hs
  | j :: rest, h, o, ho, hs => by
    rw [deleteElements] at hs
    rcases delete_cases ho (indexKey j) with ⟨-, he⟩ | ⟨p, hp, ⟨hc, he⟩ | ⟨-, he⟩⟩
    · rw [he] at hs
      obtain ⟨hmem, hpins⟩ := pins_of_deleteElements rest ho hs
      exact ⟨List.mem_cons_of_mem _ hmem, hpins⟩
    · rw [he] at hs
      cases hs
      exact ⟨List.mem_cons_self, p, Properties.mem_of_get? hp, hc⟩
    · rw [he] at hs
      obtain ⟨hmem, hpins⟩ := pins_of_deleteElements rest (getElem?_update_self ho _) hs
      exact ⟨List.mem_cons_of_mem _ hmem, hpins.of_erase⟩

theorem le_of_mem_indicesFrom (ho : h[r]? = some o) (hi : i ∈ h.indicesFrom r m) :
    m ≤ i ∧ i < maxLength := by
  rw [indicesFrom_eq ho, List.mem_mergeSort, List.mem_filter] at hi
  obtain ⟨key, -, hkey⟩ := ObjectRecord.mem_indices.mp hi.1
  exact ⟨by simpa using hi.2, (arrayIndex?_eq_some_iff.mp hkey).1⟩

/-- A deletion is stopped exactly if there is a permanent element to delete. -/
theorem deleteElements_isSome_iff (ho : h[r]? = some o) (hl : o.LengthIs n w) (least : Nat) :
    ((h.deleteElements r (h.indicesFrom r least)).1.isSome = true) ↔
      ∃ i, least ≤ i ∧ i < maxLength ∧ o.Pins i := by
  constructor
  · intro hs
    obtain ⟨i, hi⟩ := Option.isSome_iff_exists.mp hs
    obtain ⟨hmem, hpins⟩ := pins_of_deleteElements _ ho hi
    obtain ⟨hle, hlt⟩ := le_of_mem_indicesFrom ho hmem
    exact ⟨i, hle, hlt, hpins⟩
  · rintro ⟨i, hle, hi, hpins⟩
    obtain ⟨o', ho', -, hrest⟩ := deleteElements_indicesFrom ho hl least
    obtain ⟨o'', ho'', hkept⟩ := ((ObjectRecord.pins_evolution i).lift_keptAt r).deleteElements
      (h.indicesFrom r least) h r o ho
    cases ho'.symm.trans ho''
    cases hs : (h.deleteElements r (h.indicesFrom r least)).1 with
    | some _ => rfl
    | none =>
      -- Otherwise nothing from `least` on would be left.
      rw [hs] at hrest
      have hlt := (hkept hpins).lt hi hrest
      omega

/-- A truncation is refused if the length does not admit it or an element blocks it. -/
theorem truncate_eq_false_iff (ho : h[r]? = some o) (hl : o.LengthIs n true) (hm : m ≤ maxLength)
    {d : Descriptor} (hv : d.value = some (lengthValue m)) :
    (h.truncate r m d).1 = false ↔
      ¬d.MayResize true ∨ ∃ i, m ≤ i ∧ i < maxLength ∧ o.Pins i := by
  by_cases hresize : d.MayResize true
  · rw [truncate, define_length_of_mayResize (d := { d with writable := some true }) ho hl hm hv
      hresize]
    dsimp only [Option.getD_some]
    generalize hh : h.update r (·.insert "length" (.length m true)) = h₁
    have ho₁ : h₁[r]? = some (o.insert "length" (.length m true)) := by
      rw [← hh, getElem?_update_self ho]
    have hblocked : (h₁.deleteElements r (h₁.indicesFrom r m)).1.isSome = true ↔
        ∃ i, m ≤ i ∧ i < maxLength ∧ o.Pins i := by
      rw [deleteElements_isSome_iff ho₁ (hl.insert hm true)]
      exact exists_congr fun i => and_congr_right fun _ => and_congr_right fun hi =>
        ObjectRecord.pins_insert_length hi
    rw [← hblocked]
    rcases h₁.deleteElements r (h₁.indicesFrom r m) with ⟨_ | i, h₂⟩
    · dsimp only
      split <;> simp [hresize]
    · simp
  · have hperm : ¬Descriptor.permittedOn { d with writable := some true } (.length n true) =
        true := by
      rw [Descriptor.permittedOn_length (d := { d with writable := some true }) hm hl.le hv]
      exact fun hp => hresize ⟨hp.1, hp.2.1, rfl⟩
    rw [truncate, define_length (d := { d with writable := some true }) ho hl hv, if_neg hperm]
    simp [hresize]

/--
When the definition of a length is refused: the flags of the length do not admit it, or it is
read-only and would change, or a permanent element is in the way of a truncation.
-/
theorem setLength_eq_false_iff (ho : h[r]? = some o) (hl : o.LengthIs n w) (hm : m ≤ maxLength)
    (d : Descriptor) : (h.setLength r (n, w) m d).1 = false ↔
      ¬d.MayResize true ∨ (w = false ∧ (m ≠ n ∨ d.writable = some true)) ∨
        m < n ∧ ∃ i, m ≤ i ∧ i < maxLength ∧ o.Pins i := by
  rw [setLength]
  dsimp only
  by_cases hle : n ≤ m
  · have hperm : Descriptor.permittedOn { d with value := some (lengthValue m) } (.length n w) =
        true ↔ d.MayResize true ∧ (w = true ∨ d.writable ≠ some true ∧ m = n) := by
      rw [Descriptor.permittedOn_length (d := { d with value := some (lengthValue m) }) hm hl.le
        rfl]
      simp [Descriptor.MayResize, and_assoc]
    rw [if_pos hle, define_length (d := { d with value := some (lengthValue m) }) ho hl rfl]
    split
    · rename_i hp
      obtain ⟨hresize, hkept⟩ := hperm.mp hp
      refine ⟨fun hf => (Bool.false_ne_true hf.symm).elim, ?_⟩
      rintro (hr | ⟨rfl, hne⟩ | ⟨hlt, -⟩)
      · exact absurd hresize hr
      · obtain ⟨hw, he⟩ := hkept.resolve_left Bool.false_ne_true
        exact absurd hne (by simp [hw, he])
      · omega
    · rename_i hp
      refine ⟨fun _ => ?_, fun _ => rfl⟩
      by_cases hresize : d.MayResize true
      · have hfixed : ¬(w = true ∨ d.writable ≠ some true ∧ m = n) := fun hk =>
          hp (hperm.mpr ⟨hresize, hk⟩)
        refine Or.inr (Or.inl ⟨by simpa using fun hw => hfixed (Or.inl hw), ?_⟩)
        by_cases he : m = n
        · exact Or.inr (Decidable.of_not_not fun hw => hfixed (Or.inr ⟨hw, he⟩))
        · exact Or.inl he
      · exact Or.inl hresize
  · rw [if_neg hle]
    have hlt : m < n := by omega
    cases w with
    | false =>
      have hne : m ≠ n := by omega
      simp [hne]
    | true =>
      have hsame : Descriptor.MayResize { d with value := some (lengthValue m) } true ↔
          d.MayResize true := Iff.rfl
      rw [if_neg (by simp), truncate_eq_false_iff ho hl hm rfl, hsame]
      simp [hlt]

end Heap

/-! ## Pinned elements stay below the length -/

/-- The object at `r` is an array with a permanent element at `i`, below its length. -/
def Heap.PinsAt (h : Heap κ) (r : Ref) (i : Nat) : Prop := ∃ o, h[r]? = some o ∧ o.PinsBelow i

namespace Heap

variable {h h' : Heap κ} {r r' : Ref} {i m : Nat} {key : String} {d : Descriptor}

theorem PinsAt.of_others (hp : h.PinsAt r i) (hr : r' ≠ r)
    (hothers : ∀ r, r' ≠ r → h'[r]? = h[r]?) : h'.PinsAt r i := by
  obtain ⟨o, ho, hb⟩ := hp
  exact ⟨o, (hothers r hr).trans ho, hb⟩

/-- A change of the array itself, by what it leaves of the array and of its length. -/
theorem PinsAt.of_at (hp : h.PinsAt r i)
    (hkept : h.Lift (fun o o' => o.Pins i → o'.Pins i) h')
    (hat : ∀ o n w, h[r]? = some o → o.LengthIs n w → i < n → ∃ o' n' w', h'[r]? = some o' ∧
      o'.LengthIs n' w' ∧ (o'.Pins i → i < n')) : h'.PinsAt r i := by
  obtain ⟨o, ho, n, w, hl, hi, hpins⟩ := hp
  obtain ⟨o₁, ho₁, hpins₁⟩ := hkept r o ho
  obtain ⟨o₂, n₂, w₂, ho₂, hl₂, hlt⟩ := hat o n w ho hl hi
  cases ho₁.symm.trans ho₂
  exact ⟨o₁, ho₁, n₂, w₂, hl₂, hlt (hpins₁ hpins), hpins₁ hpins⟩

theorem PinsAt.delete (hp : h.PinsAt r i) (r' : Ref) (key : String) :
    (h.delete r' key).2.PinsAt r i := by
  by_cases hr : r' = r
  · subst hr
    refine hp.of_at (((ObjectRecord.pins_evolution i).lift_keptAt r').delete h key)
      fun o n w ho hl hi => ?_
    rcases delete_cases ho key with ⟨-, he⟩ | ⟨p, hown, ⟨-, he⟩ | ⟨hc, he⟩⟩
    · exact ⟨o, n, w, by rw [he, ho], hl, fun _ => hi⟩
    · exact ⟨o, n, w, by rw [he, ho], hl, fun _ => hi⟩
    · exact ⟨_, n, w, by rw [he, getElem?_update_self ho], hl.erase hown hc, fun _ => hi⟩
  · exact hp.of_others hr ((keptAt_others r').delete h key)

/-- A definition that gives no length. -/
theorem PinsAt.define (hp : h.PinsAt r i) {r' : Ref} (hd : key = "length" → d.value = none) :
    (h.define r' key d).2.PinsAt r i := by
  by_cases hr : r' = r
  · subst hr
    refine hp.of_at (((ObjectRecord.pins_evolution i).lift_keptAt r').define h key d)
      fun o n w ho hl hi => ?_
    by_cases hkey : key = "length"
    · subst hkey
      rcases define_length_of_none ho hl (hd rfl) with he | ⟨w', -, he⟩
      · exact ⟨o, n, w, he, hl, fun _ => hi⟩
      · exact ⟨_, n, w', he, hl.insert hl.le w', fun _ => hi⟩
    · rcases define_cases ho key d with ⟨-, he⟩ | ⟨p, -, he⟩
      · exact ⟨o, n, w, by rw [he, ho], hl, fun _ => hi⟩
      · exact ⟨_, n, w, by rw [he, getElem?_update_self ho], hl.insert_of_ne hkey, fun _ => hi⟩
  · exact hp.of_others hr ((keptAt_others r').define h key d)

theorem PinsAt.defineElement (hp : h.PinsAt r i) (r' : Ref) {j : Nat}
    (hj : arrayIndex? key = some j) (d : Descriptor) :
    (h.defineElement r' j key d).2.PinsAt r i := by
  by_cases hr : r' = r
  · subst hr
    refine hp.of_at (((ObjectRecord.pins_evolution i).lift_keptAt r').defineElement h j key d)
      fun o n w ho hl hi => ?_
    have hkey := ne_length_of_arrayIndex? hj
    rcases defineElement_cases ho hl hj d with he | ⟨-, p, he⟩ | ⟨hnj, -, p, he⟩
    · exact ⟨o, n, w, he, hl, fun _ => hi⟩
    · exact ⟨_, n, w, he, hl.insert_of_ne hkey, fun _ => hi⟩
    · have hj' : j + 1 ≤ maxLength := (arrayIndex?_eq_some_iff.mp hj).1
      exact ⟨_, j + 1, true, he, (hl.insert_of_ne hkey).insert hj' true, fun _ => by omega⟩
  · exact hp.of_others hr ((keptAt_others r').defineElement h j key d)

/-- The definition of a length, if the length that it is compared with was above the element. -/
theorem PinsAt.setLength (hp : h.PinsAt r i) {r' : Ref} {former : Nat × Bool}
    (hformer : r' = r → i < former.1) (hm : m ≤ maxLength) (d : Descriptor) :
    (h.setLength r' former m d).2.PinsAt r i := by
  by_cases hr : r' = r
  · have hi' := hformer hr
    subst hr
    refine hp.of_at (((ObjectRecord.pins_evolution i).lift_keptAt r').setLength h former m d)
      fun o n w ho hl hi => ?_
    rcases setLength_cases ho hl hm former d with ⟨-, he⟩ | ⟨-, hle, w', he⟩ |
      ⟨-, -, o', he, n', w', hl', hbelow⟩
    · exact ⟨o, n, w, he, hl, fun _ => hi⟩
    · exact ⟨_, m, w', he, hl.insert hm w', fun _ => by omega⟩
    · exact ⟨o', n', w', he, hl', fun hpins =>
        hpins.lt (Nat.lt_of_lt_of_le hi hl.le) hbelow⟩
  · exact hp.of_others hr ((keptAt_others r').setLength h former m d)

theorem pinsAt_growth (r : Ref) (i : Nat) :
    Growth fun h h' : Heap κ => h.PinsAt r i → h'.PinsAt r i where
  extend he := fun ⟨o, ho, hb⟩ => ⟨o, he r o ho, hb⟩
  trans h₁₂ h₂₃ hp := h₂₃ (h₁₂ hp)

/-- Definitions on an array, also of a length that code computes. -/
theorem pinsAt_defineOnArray {σ : Type} {caller : Caller κ σ}
    (hc : Eval.CallsAlong (fun h h' => h.PinsAt r i → h'.PinsAt r i) caller) (r' : Ref)
    (key : String) (d : Descriptor) (w : World κ σ) :
    Eval.Along (fun h h' => h.PinsAt r i → h'.PinsAt r i)
      (Eval.defineOnArray caller r' key d) w := by
  unfold Eval.defineOnArray
  split
  · rename_i hkey
    cases hv : d.value with
    | none => exact fun hp => hp.define fun _ => hv
    | some v =>
      intro hp
      -- The length that is read first is above the element, whatever the conversion does then.
      have hformer : r' = r → i < (w.heap.arrayLength r').1 := by
        rintro rfl
        obtain ⟨o, ho, n, w', hl, hi, -⟩ := hp
        rw [arrayLength_of_lengthIs ho hl]
        exact hi
      have hconverted := (pinsAt_growth r i).lengthOf hc v w
      show Heap.PinsAt (Eval.after (Eval.lengthOf caller v >>= fun length =>
        Eval.change (·.setLength r' (w.heap.arrayLength r') length d)) w).heap r i
      cases hm : Eval.lengthOf caller v w with
      | ok m w₁ =>
        rw [Eval.after_bind_of_ok hm]
        exact (hconverted.ok hm hp).setLength hformer (Eval.lengthOf_le hm) d
      | error e w₁ =>
        rw [Eval.after_bind_of_error hm]
        exact hconverted.error hm hp
  · rename_i hkey
    split
    · rename_i j hj
      exact fun hp => hp.defineElement r' hj d
    · exact fun hp => hp.define fun he => absurd he hkey

/-- **A permanent element below the length stays below it**, also where code gives the lengths. -/
theorem pinsAt_evolution (r : Ref) (i : Nat) :
    Heap.Evolution (fun _ => False) fun h h' : Heap κ => h.PinsAt r i → h'.PinsAt r i where
  toGrowth := pinsAt_growth r i
  close h r' hp := by
    by_cases hr : r' = r
    · subst hr
      obtain ⟨o, ho, n, w, hl, hi, hpins⟩ := hp
      exact ⟨_, getElem?_update_self ho _, n, w, hl.close, hi, hpins⟩
    · exact hp.of_others hr fun _ hr' => getElem?_update_of_ne hr' _
  delete h r' key hp := hp.delete r' key
  define {σ caller} hc {v key d} _ strict w := by
    cases v with
    | object r' =>
      unfold Eval.Along
      rw [Eval.after_defineOwn]
      split
      · exact pinsAt_defineOnArray hc r' key d w
      · rename_i hk
        intro hp
        refine hp.of_others ?_ ((keptAt_others r').define w.heap key d)
        rintro rfl
        obtain ⟨o, ho, n, w', hl, -⟩ := hp
        rw [kind?, record?, ho] at hk
        exact hk (congrArg some hl.kind)
    | _ =>
      have hR := pinsAt_growth (κ := κ) r i
      exact hR.bind_of (hR.objectFor _ _ w) fun _ _ h => by cases h

end Heap

end Es5
