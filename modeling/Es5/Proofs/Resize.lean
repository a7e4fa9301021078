import Es5.Proofs.Magnitude
import Es5.Proofs.Pinned
import Mathlib.Order.Bounds.Basic

/-!
# Setting the length of an array

What the definition of a length does, in full. A length that may be lowered is lowered as far as the
greatest permanent element allows, and the elements from the new length on are gone; all other
properties stay in their order. A length that is not lowered is defined as any property.

* `ObjectRecord.below`, `ObjectRecord.pinnedFrom`: the record cut at an index, and what resists.
* `Heap.deleteElements_eq`: the deletion of the elements from an index on.
* `Heap.truncate_eq`: a truncation.
* **`Eval.defineOwn_length`**: the outcome of the definition of a length.
-/

namespace Es5

variable {κ σ : Type}

/-! ## Records cut at an index -/

namespace Properties

variable {ps : Properties} {key : String} {p q : Property} {keep : String → Bool}

theorem insert_insert (ps : Properties) (key : String) (p q : Property) :
    (ps.insert key p).insert key q = ps.insert key q := by
  induction ps with
  | nil => simp [insert]
  | cons x rest ih =>
    obtain ⟨k, _⟩ := x
    by_cases hk : k = key
    · simp [insert, hk]
    · simp [insert, hk, ih]

theorem filter_insert (hkey : keep key = true) :
    (ps.insert key p).filter (fun x => keep x.1) =
      insert (ps.filter fun x => keep x.1) key p := by
  induction ps with
  | nil => simp [insert, hkey]
  | cons x rest ih =>
    obtain ⟨k, _⟩ := x
    by_cases hk : k = key
    · subst hk
      simp [insert, hkey]
    · cases hkeep : keep k with
      | true => simp [insert, hk, hkeep, ih]
      | false => simp [insert, hk, hkeep, ih]

theorem filter_erase (hkey : keep key = false) :
    (ps.erase key).filter (fun x => keep x.1) = ps.filter fun x => keep x.1 := by
  induction ps with
  | nil => rfl
  | cons x rest ih =>
    obtain ⟨k, _⟩ := x
    by_cases hk : k = key
    · subst hk
      simp [erase, hkey]
    · simp [erase, hk, List.filter_cons, ih]

theorem get?_filter (hkey : keep key = true) :
    get? (ps.filter fun x => keep x.1) key = ps.get? key := by
  induction ps with
  | nil => rfl
  | cons x rest ih =>
    obtain ⟨k, q⟩ := x
    cases hkeep : keep k with
    | true =>
      rw [List.filter_cons_of_pos (by simpa using hkeep), get?_cons, get?_cons, ih]
    | false =>
      have hk : k ≠ key := by
        rintro rfl
        rw [hkeep] at hkey
        cases hkey
      rw [List.filter_cons_of_neg (by simpa using hkeep), get?_cons, if_neg hk, ih]

/-- Keys that are not repeated have one property each. -/
theorem get?_of_mem (hkeys : ps.keys.Nodup) (h : (key, p) ∈ ps) : ps.get? key = some p := by
  induction ps with
  | nil => cases h
  | cons x rest ih =>
    obtain ⟨k, q⟩ := x
    have hnodup : (k :: keys rest).Nodup := hkeys
    rw [get?_cons]
    rcases List.mem_cons.mp h with he | hmem
    · cases he
      rw [if_pos rfl]
    · have hk : k ≠ key := by
        rintro rfl
        exact (List.nodup_cons.mp hnodup).1 (List.mem_map_of_mem (f := Prod.fst) hmem)
      rw [if_neg hk, ih (List.nodup_cons.mp hnodup).2 hmem]

end Properties

namespace ObjectRecord

/-- Whether a key is no index from `n` on. -/
def isBelow (n : Nat) (key : String) : Bool := (arrayIndex? key).all (· < n)

/-- The record without the elements from `n` on. -/
def below (o : ObjectRecord κ) (n : Nat) : ObjectRecord κ :=
  { o with properties := o.properties.filter fun x => isBelow n x.1 }

/-- The indices from `n` on of permanent elements. -/
def pinnedFrom (o : ObjectRecord κ) (n : Nat) : Set Nat := {i | n ≤ i ∧ i < maxLength ∧ o.Pins i}

variable {o : ObjectRecord κ} {i m n : Nat} {w : Bool} {key : String} {p : Property}

theorem isBelow_length (n : Nat) : isBelow n "length" = true := by
  rw [isBelow, arrayIndex?_length]
  rfl

theorem isBelow_indexKey (hi : i < maxLength) : isBelow n (indexKey i) = decide (i < n) := by
  have hkey : arrayIndex? (indexKey i) = some i := arrayIndex?_eq_some_iff.mpr ⟨hi, rfl⟩
  rw [isBelow, hkey]
  rfl

/-- Nothing is cut off at a length that is above all indices. -/
theorem below_of_indicesBelow (h : o.IndicesBelow n) : o.below n = o := by
  have hkeep : o.properties.filter (fun x => isBelow n x.1) = o.properties := by
    refine List.filter_eq_self.mpr fun x hx => ?_
    have hmem : x.1 ∈ o.properties.keys := List.mem_map_of_mem (f := Prod.fst) hx
    rw [isBelow]
    cases hi : arrayIndex? x.1 with
    | none => rfl
    | some i => simpa using h x.1 hmem i hi
  rw [below, hkeep]

theorem below_insert_length : (o.insert "length" p).below n = (o.below n).insert "length" p := by
  rw [below, properties_insert, Properties.filter_insert (isBelow_length n)]
  rfl

theorem below_erase (hi : i < maxLength) (hn : n ≤ i) :
    (o.erase (indexKey i)).below n = o.below n := by
  have hgone : isBelow n (indexKey i) = false := by
    rw [isBelow_indexKey hi]
    simpa using hn
  rw [below, properties_erase, Properties.filter_erase hgone]
  rfl

theorem insert_insert (o : ObjectRecord κ) (key : String) (p q : Property) :
    (o.insert key p).insert key q = o.insert key q := by
  rw [ObjectRecord.insert, properties_insert, Properties.insert_insert]
  rfl

theorem LengthIs.below (h : o.LengthIs n w) (m : Nat) : (o.below m).LengthIs n w :=
  ⟨h.kind, (Properties.get?_filter (isBelow_length m)).trans h.own, h.le⟩

/-- The deletion of a configurable element leaves the permanent ones. -/
theorem pinnedFrom_erase (hp : o.own? key = some p) (hc : p.configurable = true) :
    (o.erase key).pinnedFrom n = o.pinnedFrom n := by
  ext i
  exact and_congr_right fun _ => and_congr_right fun _ =>
    ⟨fun hpins => hpins.of_erase, fun hpins => hpins.erase hp hc⟩

theorem pinnedFrom_insert_length : (o.insert "length" p).pinnedFrom n = o.pinnedFrom n := by
  ext i
  exact and_congr_right fun _ => and_congr_right fun hi => pins_insert_length hi

theorem not_pins (hkeys : o.properties.keys.Nodup) (hp : o.own? (indexKey i) = some p)
    (hc : p.configurable = true) : ¬o.Pins i := by
  rintro ⟨q, hq, hc'⟩
  have hq' : o.own? (indexKey i) = some q := Properties.get?_of_mem hkeys hq
  cases hp.symm.trans hq'
  rw [hc] at hc'
  cases hc'

/-- The record of an array cut at `n` where `s` is the greatest index that resists, if any does. -/
def resized (o : ObjectRecord κ) (n : Nat) (s : Option Nat) (writable : Bool) : ObjectRecord κ :=
  let length := s.elim n (· + 1)
  (o.below length).insert "length" (.length length writable)

end ObjectRecord

/-! ## Truncations -/

namespace Heap

variable {h : Heap κ} {r : Ref} {o : ObjectRecord κ} {m n : Nat} {w : Bool}

theorem update_update (h : Heap κ) (r : Ref) (f g : ObjectRecord κ → ObjectRecord κ) :
    (h.update r f).update r g = h.update r fun o => g (f o) := by
  refine Array.ext_getElem? fun i => ?_
  rw [getElem?_update, getElem?_update, getElem?_update]
  split
  · rw [Option.map_map]
    rfl
  · rfl

theorem update_eq (ho : h[r]? = some o) (f : ObjectRecord κ → ObjectRecord κ) :
    h.update r f = h.update r fun _ => f o := by
  refine Array.ext_getElem? fun i => ?_
  rw [getElem?_update, getElem?_update]
  split
  · subst i
    rw [ho]
    rfl
  · rfl

theorem update_self (ho : h[r]? = some o) : h.update r (fun _ => o) = h := by
  refine Array.ext_getElem? fun i => ?_
  rw [getElem?_update]
  split
  · subst i
    rw [ho]
    rfl
  · rfl

/--
The deletion of the elements from `least` on, by induction on those that are left. An element that
is deleted is no element of the rest, so the first that stays is the greatest permanent one.
-/
theorem deleteElements_eq {least : Nat} : ∀ (indices : List Nat) {h : Heap κ}
    {o : ObjectRecord κ}, h[r]? = some o → o.properties.keys.Nodup →
    indices.Perm (o.indices.filter (least ≤ ·)) → indices.Pairwise (fun i j => j ≤ i) →
    ∃ s : Option Nat, (∀ i, s = some i ↔ IsGreatest (o.pinnedFrom least) i) ∧
      h.deleteElements r indices = (s, h.update r fun _ => o.below (s.elim least (· + 1)))
  | [], h, o, ho, _, hperm, _ => by
    have hnil : o.indices.filter (least ≤ ·) = [] := hperm.symm.eq_nil
    have hlt : ∀ i ∈ o.indices, i < least := fun i hi => by
      simpa using List.filter_eq_nil_iff.mp hnil i hi
    refine ⟨none, fun i => ⟨fun he => (nomatch he), fun hi => ?_⟩, ?_⟩
    · obtain ⟨hle, hi', hpins⟩ := hi.1
      have := hlt i (hpins.mem_indices hi')
      omega
    · have hcut : o.below least = o :=
        ObjectRecord.below_of_indicesBelow (ObjectRecord.indicesBelow_iff.mpr hlt)
      rw [deleteElements]
      show (none, h) = (none, h.update r fun _ => o.below least)
      rw [hcut, update_self ho]
  | i :: rest, h, o, ho, hkeys, hperm, hsorted => by
    obtain ⟨hmem, hleast⟩ := List.mem_filter.mp (hperm.subset List.mem_cons_self)
    obtain ⟨key, hkey, hi⟩ := ObjectRecord.mem_indices.mp hmem
    obtain ⟨hlt, rfl⟩ := arrayIndex?_eq_some_iff.mp hi
    have hle : least ≤ i := by simpa using hleast
    have hbelow : ∀ j ∈ o.indices, j ≤ i := fun j hj => by
      by_cases hj' : least ≤ j
      · have hj'' : j ∈ i :: rest :=
          hperm.symm.subset (List.mem_filter.mpr ⟨hj, by simpa using hj'⟩)
        rcases List.mem_cons.mp hj'' with rfl | hrest
        · exact Nat.le_refl _
        · exact List.rel_of_pairwise_cons hsorted hrest
      · omega
    rw [deleteElements]
    rcases delete_cases ho (indexKey i) with ⟨hn, -⟩ | ⟨p, hp, ⟨hc, he⟩ | ⟨hc, he⟩⟩
    · exact absurd hkey (ObjectRecord.own?_eq_none_iff.mp hn)
    · -- The element stays, and it is the greatest index of all.
      have hpins : o.Pins i := ⟨p, Properties.mem_of_get? hp, hc⟩
      have hgreatest : IsGreatest (o.pinnedFrom least) i :=
        ⟨⟨hle, hlt, hpins⟩, fun j hj => hbelow j (hj.2.2.mem_indices hj.2.1)⟩
      refine ⟨some i, fun j => ⟨fun hj => ?_, fun hj => ?_⟩, ?_⟩
      · cases hj
        exact hgreatest
      · rw [hgreatest.unique hj]
      · have hcut : o.below (i + 1) = o :=
          ObjectRecord.below_of_indicesBelow (ObjectRecord.indicesBelow_iff.mpr fun j hj => by
            have := hbelow j hj
            omega)
        rw [he]
        show (some i, h) = (some i, h.update r fun _ => o.below (i + 1))
        rw [hcut, update_self ho]
    · have ho' : (h.update r (·.erase (indexKey i)))[r]? = some (o.erase (indexKey i)) :=
        getElem?_update_self ho _
      have hkeys' : (o.erase (indexKey i)).properties.keys.Nodup := by
        rw [ObjectRecord.properties_erase, Properties.keys_erase]
        exact hkeys.erase _
      have hperm' : rest.Perm ((o.erase (indexKey i)).indices.filter (least ≤ ·)) := by
        rw [ObjectRecord.indices_erase hi, ← List.erase_filter]
        exact (List.cons_perm_iff_perm_erase.mp hperm).2
      obtain ⟨s, hs, hdeleted⟩ := deleteElements_eq rest ho' hkeys' hperm' hsorted.of_cons
      rw [ObjectRecord.pinnedFrom_erase hp hc] at hs
      have hcut : s.elim least (· + 1) ≤ i := by
        cases s with
        | none => exact hle
        | some j =>
          obtain ⟨-, hj, hpins⟩ := ((hs j).mp rfl).1
          have hji := hbelow j (hpins.mem_indices hj)
          have hne : j ≠ i := by
            rintro rfl
            exact ObjectRecord.not_pins hkeys hp hc hpins
          show j + 1 ≤ i
          omega
      refine ⟨s, hs, ?_⟩
      rw [he]
      show deleteElements (h.update r _) r rest = _
      rw [hdeleted, update_update, ObjectRecord.below_erase hlt hcut]

/-- A length that is writable is made read-only. -/
theorem define_length_readOnly (ho : h[r]? = some o) (hl : o.LengthIs n true) :
    h.define r "length" { writable := some false } =
      (true, h.update r (·.insert "length" (.length n false))) := by
  have happly := hl.applyTo? { writable := some false }
  have hperm : Descriptor.permittedOn { writable := some false } (.length n true) = true := by
    simp [Descriptor.permittedOn, Property.length, Property.configurable, Property.enumerable,
      Descriptor.fieldWithin, Descriptor.isGeneric, Descriptor.isData, Descriptor.switches,
      Property.isData, Descriptor.keepsFixed]
  rw [if_pos hperm] at happly
  rw [define, ho]
  simp only [happly]
  rfl

/-- **A truncation** cuts the array at the length asked for or above the elements that resist. -/
theorem truncate_eq (ho : h[r]? = some o) (hl : o.LengthIs n w) (hkeys : o.properties.keys.Nodup)
    (hm : m ≤ maxLength) {d : Descriptor} (hv : d.value = some (lengthValue m))
    (hresize : d.MayResize w) :
    ∃ s : Option Nat, (∀ i, s = some i ↔ IsGreatest (o.pinnedFrom m) i) ∧
      h.truncate r m d =
        (s.isNone, h.update r fun _ => o.resized m s (d.writable.getD true)) := by
  generalize hh : h.update r (·.insert "length" (.length m true)) = h₁
  have ho₁ : h₁[r]? = some (o.insert "length" (.length m true)) := by
    rw [← hh, getElem?_update_self ho]
  have hl₁ : (o.insert "length" (.length m true)).LengthIs m true := hl.insert hm true
  have hkeys₁ : (o.insert "length" (.length m true)).properties.keys.Nodup := by
    rw [ObjectRecord.properties_insert, Properties.keys_insert,
      if_pos (ObjectRecord.mem_keys_of_own? hl.own)]
    exact hkeys
  have hperm : (h₁.indicesFrom r m).Perm
      ((o.insert "length" (.length m true)).indices.filter (m ≤ ·)) := by
    rw [indicesFrom_eq ho₁]
    exact List.mergeSort_perm ..
  obtain ⟨s, hs, hdeleted⟩ :=
    deleteElements_eq _ ho₁ hkeys₁ hperm (pairwise_indicesFrom h₁ r m)
  rw [ObjectRecord.pinnedFrom_insert_length] at hs
  generalize hcut : (o.insert "length" (.length m true)).below (s.elim m (· + 1)) = o₂ at hdeleted
  have ho₂ : (h₁.update r fun _ => o₂)[r]? = some o₂ := getElem?_update_self ho₁ _
  have hl₂ : o₂.LengthIs m true := by
    rw [← hcut]
    exact hl₁.below _
  -- Storing the final length replaces the one that was stored first.
  have hfinal : ∀ length writable,
      (h₁.update r fun _ => o₂).update r (·.insert "length" (.length length writable)) =
        h.update r fun _ =>
          (o.below (s.elim m (· + 1))).insert "length" (.length length writable) := by
    intro length writable
    rw [← hh, update_update, update_update, ← hcut, ObjectRecord.below_insert_length,
      ObjectRecord.insert_insert]
  refine ⟨s, hs, ?_⟩
  rw [truncate,
    define_length_of_mayResize (d := { d with writable := some true }) ho hl hm hv hresize]
  dsimp only [Option.getD_some]
  rw [hh, hdeleted]
  cases s with
  | none =>
    cases hw : d.writable.getD true with
    | true =>
      show (true, h₁.update r fun _ => o₂) = (true, _)
      rw [← hcut, ← hh, update_update, ObjectRecord.below_insert_length]
      rfl
    | false =>
      show (true, (define _ r "length" { writable := some false }).2) = (true, _)
      rw [define_length_readOnly ho₂ hl₂, hfinal]
      rfl
  | some i =>
    have hi : i < maxLength := ((hs i).mp rfl).1.2.1
    have hresize₂ : Descriptor.MayResize
        { value := some (lengthValue (i + 1)), writable := some (d.writable.getD true) } true :=
      ⟨by simp, by simp, rfl⟩
    show (false, (define _ r "length"
      { value := some (lengthValue (i + 1)), writable := some (d.writable.getD true) }).2) =
        (false, _)
    rw [define_length_of_mayResize ho₂ hl₂ hi rfl hresize₂, hfinal]
    rfl

/-- A definition that gives a length a value changes at most the property that holds it. -/
theorem define_length_eq (ho : h[r]? = some o) (hl : o.LengthIs n w) (hm : m ≤ maxLength)
    {d : Descriptor} (hv : d.value = some (lengthValue m)) : ∃ accepted : Bool,
      (accepted = true ↔ d.configurable ≠ some true ∧ d.enumerable ≠ some true ∧
        (w = true ∨ d.writable ≠ some true ∧ m = n)) ∧
      h.define r "length" d = (accepted, if accepted then
        h.update r fun _ => o.insert "length" (.length m (d.writable.getD w)) else h) := by
  refine ⟨_, Descriptor.permittedOn_length hm hl.le hv, ?_⟩
  rw [define_length ho hl hv, update_eq ho]
  cases d.permittedOn (.length n w) <;> rfl

/-- A length that is not lowered is defined as any property. -/
theorem setLength_of_not_lowered (ho : h[r]? = some o) (hl : o.LengthIs n w) (hm : m ≤ maxLength)
    {d : Descriptor} (hlower : ¬(m < n ∧ d.MayResize w)) :
    h.setLength r (n, w) m d = h.define r "length" { d with value := some (lengthValue m) } := by
  rw [setLength]
  dsimp only
  by_cases hle : n ≤ m
  · rw [if_pos hle]
  · have hresize : ¬d.MayResize w := fun hr => hlower ⟨by omega, hr⟩
    have hperm : ¬Descriptor.permittedOn { d with value := some (lengthValue m) } (.length n w) =
        true := by
      rw [Descriptor.permittedOn_length (d := { d with value := some (lengthValue m) }) hm hl.le
        rfl]
      rintro ⟨hc, he, hw | ⟨-, hmn⟩⟩
      · exact hresize ⟨hc, he, hw⟩
      · omega
    rw [if_neg hle, define_length ho hl rfl, if_neg hperm]
    split
    · rfl
    · have hvalue : ¬Descriptor.MayResize { d with value := some (lengthValue m) } w := hresize
      have hperm' : ¬Descriptor.permittedOn
          { d with value := some (lengthValue m), writable := some true } (.length n w) = true := by
        rw [Descriptor.permittedOn_length
          (d := { d with value := some (lengthValue m), writable := some true }) hm hl.le rfl]
        simpa [Descriptor.MayResize] using hresize
      rw [truncate, define_length
        (d := { d with value := some (lengthValue m), writable := some true }) ho hl rfl,
        if_neg hperm']

end Heap

/-! ## Definitions of a length -/

theorem Value.length?_eq_some_iff {v : Value} {n : Nat} :
    v.length? = some n ↔ n ≤ maxLength ∧ v.plainNumber.Amounts n := by
  rw [← Double.equal_ofNat_toUint32_iff, Value.length?]
  split
  · rename_i hequal
    rw [Option.some_inj]
    exact ⟨fun h => ⟨hequal, h⟩, And.right⟩
  · rename_i hequal
    exact ⟨fun h => absurd h (by simp), fun h => absurd h.1 hequal⟩

namespace Eval

/-- The outcome of a definition that was accepted or refused. -/
def settled (key : String) (strict accepted : Bool) (w : World κ σ) :
    EStateM.Result Abrupt (World κ σ) Bool :=
  if !accepted && strict then .error (.threw (.unredefinable key)) w else .ok accepted w

variable {caller : Caller κ σ} {w : World κ σ} {r : Ref} {o : ObjectRecord κ} {d : Descriptor}
  {v : Value} {n old : Nat} {writable strict : Bool}

theorem kind_of_settled {key : String} {accepted : Bool} {w' : World κ σ} {e : ScriptError}
    (h : settled key strict accepted w = .error (.threw e) w') : e.kind = .typeError := by
  rw [settled] at h
  split at h
  · cases h
    rfl
  · cases h

theorem defineOwn_length_of_some (ho : w.heap[r]? = some o) (hl : o.LengthIs old writable)
    (hd : d.value = some v) (hv : v.isObject = false) (hn : v.length? = some n) :
    defineOwn caller (.object r) "length" d strict w =
      settled "length" strict (w.heap.setLength r (old, writable) n d).1
        { w with heap := (w.heap.setLength r (old, writable) n d).2 } := by
  have hkind : w.heap.kind? (.object r) = some .array := by
    rw [Heap.kind?, Heap.record?, ho]
    exact congrArg some hl.kind
  have hlength : lengthOf caller v w = .ok n w := by rw [lengthOf_plain hv, hn]
  have hrule : defineBy caller r "length" d w =
      .ok (w.heap.setLength r (old, writable) n d).1
        { w with heap := (w.heap.setLength r (old, writable) n d).2 } := by
    rw [defineBy, if_pos hkind, defineOnArray_length hd, Heap.arrayLength_of_lengthIs ho hl,
      bind_of_ok hlength]
    rfl
  rw [defineOwn_object, bind_of_ok hrule, settled]
  split <;> rfl

theorem defineOwn_length_of_none (ho : w.heap[r]? = some o) (hl : o.LengthIs old writable)
    (hd : d.value = some v) (hv : v.isObject = false) (hn : v.length? = none) :
    defineOwn caller (.object r) "length" d strict w = .error (.threw .invalidLength) w := by
  have hkind : w.heap.kind? (.object r) = some .array := by
    rw [Heap.kind?, Heap.record?, ho]
    exact congrArg some hl.kind
  have hlength : lengthOf caller v w = .error (.threw .invalidLength) w := by
    rw [lengthOf_plain hv, hn]
  have hrule : defineBy caller r "length" d w = .error (.threw .invalidLength) w := by
    rw [defineBy, if_pos hkind, defineOnArray_length hd, bind_of_error hlength]
  rw [defineOwn_object, bind_of_error hrule]

/--
**The outcome of the definition of a length.** A value that is no natural of 32 bits is a range
error that changes nothing. A length that may be lowered is lowered to the natural or, if there are
permanent elements from there on, to just above the greatest of them, which counts as a refusal.
Any other length is defined as a property is: at most its value and its writability change.
-/
theorem defineOwn_length (caller : Caller κ σ) (strict : Bool) (ho : w.heap[r]? = some o)
    (hkeys : o.properties.keys.Nodup) (hl : o.LengthIs old writable)
    (hd : d.value = some v) (hv : v.isObject = false) :
    ((∃ e : ScriptError, e.kind = .rangeError ∧
        defineOwn caller (.object r) "length" d strict w = .error (.threw e) w) ↔
      ∀ n ≤ maxLength, ¬v.plainNumber.Amounts n) ∧
    ∀ n ≤ maxLength, v.plainNumber.Amounts n →
      (n < old ∧ d.MayResize writable → ∃ s : Option Nat,
        (∀ i, s = some i ↔ IsGreatest (o.pinnedFrom n) i) ∧
        defineOwn caller (.object r) "length" d strict w = settled "length" strict s.isNone
          { w with heap := w.heap.update r fun _ => o.resized n s (d.writable.getD true) }) ∧
      (¬(n < old ∧ d.MayResize writable) → ∃ accepted : Bool,
        (accepted = true ↔ d.configurable ≠ some true ∧ d.enumerable ≠ some true ∧
          (writable = true ∨ d.writable ≠ some true ∧ n = old)) ∧
        let heap := if accepted then
          w.heap.update r fun _ => o.insert "length" (.length n (d.writable.getD writable))
        else w.heap
        w.heap.define r "length" { d with value := some (Heap.lengthValue n) } =
            (accepted, heap) ∧
          defineOwn caller (.object r) "length" d strict w =
            settled "length" strict accepted { w with heap }) := by
  have hsome : ∀ n, v.length? = some n ↔ n ≤ maxLength ∧ v.plainNumber.Amounts n :=
    fun _ => Value.length?_eq_some_iff
  refine ⟨⟨?_, fun hnone => ?_⟩, fun n hn hx => ?_⟩
  · rintro ⟨e, he, hthrown⟩ n hn hx
    rw [defineOwn_length_of_some ho hl hd hv ((hsome n).mpr ⟨hn, hx⟩)] at hthrown
    rw [kind_of_settled hthrown] at he
    cases he
  · have hlength : v.length? = none := Option.eq_none_iff_forall_ne_some.mpr fun n hn =>
      hnone n ((hsome n).mp hn).1 ((hsome n).mp hn).2
    exact ⟨.invalidLength, rfl, defineOwn_length_of_none ho hl hd hv hlength⟩
  · have hlength : v.length? = some n := (hsome n).mpr ⟨hn, hx⟩
    rw [defineOwn_length_of_some ho hl hd hv hlength]
    refine ⟨fun ⟨hlt, hresize⟩ => ?_, fun hlower => ?_⟩
    · have hset : w.heap.setLength r (old, writable) n d =
          w.heap.truncate r n { d with value := some (Heap.lengthValue n) } := by
        rw [Heap.setLength, if_neg (by simpa using hlt), if_neg (by simp [hresize.2.2])]
      obtain ⟨s, hs, htruncated⟩ := Heap.truncate_eq
        (d := { d with value := some (Heap.lengthValue n) }) ho hl hkeys hn rfl hresize
      exact ⟨s, hs, by rw [hset, htruncated]⟩
    · obtain ⟨accepted, haccepted, hdefine⟩ := Heap.define_length_eq
        (d := { d with value := some (Heap.lengthValue n) }) ho hl hn rfl
      refine ⟨accepted, haccepted, hdefine, ?_⟩
      rw [Heap.setLength_of_not_lowered ho hl hn hlower, hdefine]

end Eval

namespace ObjectRecord

/-- An array of three elements, the second of which is permanent. -/
def pinnedArray : ObjectRecord κ :=
  { kind := .array, properties := [("2", .plain .null), ("1", .fixed .null true),
    ("length", .length 3 true), ("0", .plain .null)] }

theorem pinnedFrom_pinnedArray : IsGreatest ((pinnedArray : ObjectRecord κ).pinnedFrom 0) 1 := by
  have hkey : "1" = indexKey 1 := by decide +kernel
  refine ⟨⟨Nat.zero_le _, by decide +kernel, .fixed .null true, ?_, rfl⟩, ?_⟩
  · rw [← hkey]
    simp [pinnedArray]
  · rintro i ⟨-, hi, p, hp, hc⟩
    have hlength : indexKey i ≠ "length" :=
      ne_length_of_arrayIndex? (arrayIndex?_eq_some_iff.mpr ⟨hi, rfl⟩)
    simp only [pinnedArray, List.mem_cons, List.not_mem_nil, or_false, Prod.mk.injEq] at hp
    rcases hp with ⟨-, rfl⟩ | ⟨hone, rfl⟩ | ⟨hl, -⟩ | ⟨-, rfl⟩
    · cases hc
    · exact Nat.le_of_eq (indexKey_injective (hone.trans hkey))
    · exact absurd hl hlength
    · cases hc

end ObjectRecord

open ObjectRecord in
/-- The length zero, to be read-only, is refused there and leaves two elements. -/
theorem Eval.defineOwn_length_pinned :
    let d : Descriptor := { value := some (.boolean false), writable := some false }
    defineOwn (runBehaviour 0) (.object 0) "length" d false ⟨#[pinnedArray], ()⟩ = .ok false
      ⟨#[{ kind := .array, properties :=
        [("1", .fixed .null true), ("length", .length 2 false), ("0", .plain .null)] }], ()⟩ := by
  intro d
  have hl : (pinnedArray : ObjectRecord (Behaviour Unit)).LengthIs 3 true :=
    ⟨rfl, rfl, by decide +kernel⟩
  have hzero : (Value.boolean false).plainNumber.Amounts 0 :=
    ⟨false, ⟨0, by decide⟩, rfl, by decide +kernel, fun h => (nomatch h)⟩
  obtain ⟨s, hs, hoc⟩ := ((defineOwn_length (w := ⟨#[pinnedArray], ()⟩) (r := 0) (d := d)
    (v := .boolean false) (runBehaviour 0) false rfl (by decide +kernel) hl rfl rfl).2 0
    (Nat.zero_le _) hzero).1 ⟨by decide, by decide, by decide, rfl⟩
  rw [hoc, (hs 1).mpr pinnedFrom_pinnedArray]
  rfl

end Es5
