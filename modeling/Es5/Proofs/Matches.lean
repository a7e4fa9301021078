import Es5.Proofs.ArrayRun
import Es5.Proofs.Chain
import Es5.Proofs.Lookup
import Es5.Proofs.Resize
import Es5.Proofs.Search
import Es5.Proofs.Truncation

/-!
# First and last matches

On an object whose length and elements are read without running code, a search finds the first or
the last index from its start on that holds the value searched for. The start is that of exact
arithmetic, however far from the elements it is, and computing it in words of 64 bits is exact
enough.

* `Heap.ArrayLike`: an object whose length and elements are data or missing.
* `Heap.Matches`: a property at an index holds the value searched for.
* `forwardFrom`, `backwardFrom`: where the searches start, in exact arithmetic.
* `backwardStart64`: the latter in words of 64 bits.
* **`Eval.indexOf_first_match`**, **`Eval.lastIndexOf_last_match`**: the two searches.
-/

namespace Es5

variable {κ σ : Type}

/-- The value of the nearest property under a key; undefined where there is none. -/
def Heap.valueAt (h : Heap κ) (o : Value) (key : String) : Value :=
  match h.find? o key with
  | some (.data value _ _ _) => value
  | _ => .undefined

/-- An object whose length is plain, and whose length and elements are data or missing. -/
structure Heap.ArrayLike (h : Heap κ) (o : Value) (length : Nat) : Prop where
  isObject : o.isObject = true
  data : ∀ p, h.find? o "length" = some p → p.isData = true
  plain : (h.valueAt o "length").isObject = false
  size : (h.valueAt o "length").plainNumber.toUint32 = length
  elements : ∀ i < length, ∀ p, h.find? o (indexKey i) = some p → p.isData = true

/-- At an index the object has a property, its own or not, with the value searched for. -/
def Heap.Matches (h : Heap κ) (o search : Value) (i : Nat) : Prop :=
  h.Holds o search (fun j => h.valueAt o (indexKey j)) i

/-- Where a search forward starts: a negative start counts from the end. -/
def forwardFrom (length : Nat) (n : ExtendedInt) : ExtendedInt :=
  if 0 ≤ n then n else max (.ofInt length + n) 0

/-- Where a search backward starts: at the last index at most. -/
def backwardFrom (length : Nat) (n : ExtendedInt) : ExtendedInt :=
  if 0 ≤ n then min n (.ofInt (length - 1)) else .ofInt length + n

/-- Where a search backward starts, computed in words of 64 bits. -/
def backwardStart64 (length : Nat) (x : Double) : Int64 :=
  let n := x.toInt64
  if 0 ≤ n then min n (Int64.ofNat length - 1) else Int64.ofNat length + n

/-- The number that a start converts to where there is one. -/
def startOr (absent : Double) (fromIndex : Option Value) : Double :=
  fromIndex.elim absent fun v => v.plainNumber.toInteger

@[simp]
theorem startOr_none (absent : Double) : startOr absent none = absent := rfl

@[simp]
theorem startOr_some (absent : Double) (v : Value) :
    startOr absent (some v) = v.plainNumber.toInteger := rfl

/-! ## What is least and what is greatest -/

section Found

variable {s : Set Nat} {k l : Int}

theorem FirstOf.unique (hk : FirstOf s k) (hl : FirstOf s l) : k = l := by
  rcases hk with ⟨i, hi, rfl⟩ | ⟨hs, rfl⟩
  · rcases hl with ⟨j, hj, rfl⟩ | ⟨hs, rfl⟩
    · rw [hi.unique hj]
    · rw [hs] at hi
      cases hi.1
  · rcases hl with ⟨j, hj, rfl⟩ | ⟨-, rfl⟩
    · rw [hs] at hj
      cases hj.1
    · rfl

theorem LastOf.unique (hk : LastOf s k) (hl : LastOf s l) : k = l := by
  rcases hk with ⟨i, hi, rfl⟩ | ⟨hs, rfl⟩
  · rcases hl with ⟨j, hj, rfl⟩ | ⟨hs, rfl⟩
    · rw [hi.unique hj]
    · rw [hs] at hi
      cases hi.1
  · rcases hl with ⟨j, hj, rfl⟩ | ⟨-, rfl⟩
    · rw [hs] at hj
      cases hj.1
    · rfl

theorem FirstOf.mem {i : Nat} (hk : FirstOf s k) (hi : k = i) : i ∈ s := by
  rcases hk with ⟨j, hj, rfl⟩ | ⟨-, rfl⟩
  · have hji : j = i := by omega
    exact hji ▸ hj.1
  · omega

/-- The least and the greatest index of a set are one exactly if it has one element. -/
theorem FirstOf.lastOf (hk : FirstOf s k) (hl : LastOf s l) :
    (k = -1 ↔ l = -1) ∧ (k ≠ -1 → k ≤ l ∧ (k = l ↔ ∃! i, i ∈ s)) := by
  rcases hk with ⟨i, hi, rfl⟩ | ⟨hs, rfl⟩
  · rcases hl with ⟨j, hj, rfl⟩ | ⟨hs, rfl⟩
    · have hij : i ≤ j := hi.2 hj.1
      refine ⟨by omega, fun _ => ⟨by omega, ?_, ?_⟩⟩
      · intro he
        refine ⟨i, hi.1, fun m hm => ?_⟩
        have hlow := hi.2 hm
        have hhigh := hj.2 hm
        omega
      · intro hunique
        have hsame : i = j := hunique.unique hi.1 hj.1
        omega
    · rw [hs] at hi
      cases hi.1
  · rcases hl with ⟨j, hj, rfl⟩ | ⟨-, rfl⟩
    · rw [hs] at hj
      cases hj.1
    · simp

/-- The first position of an element in a list. -/
theorem firstOf_findIdx? (values : List Value) (p : Value → Bool) :
    FirstOf {i | ∃ hi : i < values.length, p values[i] = true}
      ((values.findIdx? p).elim (-1) Int.ofNat) := by
  cases hfound : values.findIdx? p with
  | none =>
    have hnone := List.findIdx?_eq_none_iff.mp hfound
    refine firstOf_empty fun i hi => ?_
    obtain ⟨hlt, hp⟩ := hi
    rw [hnone _ (List.getElem_mem hlt)] at hp
    cases hp
  | some i =>
    obtain ⟨hi, hp, hbefore⟩ := List.findIdx?_eq_some_iff_getElem.mp hfound
    refine Or.inl ⟨i, ⟨⟨hi, hp⟩, ?_⟩, rfl⟩
    rintro j ⟨hj, hpj⟩
    by_contra hlt
    exact hbefore j (by omega) hpj

end Found

/-! ## Starts -/

section Starts

variable {length i : Nat}

/-- A search forward covers the indices from its exact start on. -/
theorem forwardFrom_le_iff (hi : i < length) (x : Double) :
    forwardFrom length x.whole ≤ .ofInt i ↔ searchPosition length x ≤ i := by
  rcases x.whole_cases (length + 1) with rfl | rfl | hx
  · rw [Double.whole_below, forwardFrom, if_neg ExtendedInt.not_nonneg_bot,
      ExtendedInt.ofInt_add_bot, max_le_iff]
    simp [ExtendedInt.bot_lt_ofInt.le, searchPosition, Double.toInt]
    omega
  · rw [Double.whole_above, forwardFrom, if_pos ExtendedInt.nonneg_top, ← not_lt]
    simp [ExtendedInt.ofInt_lt_top, searchPosition, Double.toInt]
    omega
  · rw [hx]
    simp only [forwardFrom, searchPosition]
    generalize x.toInt (length + 1) = n
    by_cases hn : 0 ≤ n
    · simp [hn]
    · simp [hn]

/-- A search backward covers the indices up to its exact start. -/
theorem le_backwardFrom_iff (x : Double) :
    .ofInt i ≤ backwardFrom length x.whole ↔ i < length ∧ i ≤ searchPosition length x := by
  rcases x.whole_cases (length + 1) with rfl | rfl | hx
  · rw [Double.whole_below, backwardFrom, if_neg ExtendedInt.not_nonneg_bot,
      ExtendedInt.ofInt_add_bot, ← not_lt]
    simp [ExtendedInt.bot_lt_ofInt, searchPosition, Double.toInt]
    omega
  · rw [Double.whole_above, backwardFrom, if_pos ExtendedInt.nonneg_top, le_min_iff]
    simp [ExtendedInt.ofInt_lt_top.le, searchPosition, Double.toInt]
    omega
  · rw [hx]
    simp only [backwardFrom, searchPosition]
    generalize x.toInt (length + 1) = n
    by_cases hn : 0 ≤ n
    · simp [hn]
      omega
    · simp [hn]
      omega

/-- A search backward from the last index covers them all. -/
theorem le_backwardFrom_last : .ofInt i ≤ backwardFrom length (.ofInt (length - 1)) ↔
    i < length := by
  rw [backwardFrom]
  by_cases hn : (0 : Int) ≤ length - 1
  · rw [if_pos (ExtendedInt.ofInt_nonneg.mpr hn), le_min_iff, and_self, ExtendedInt.ofInt_le_ofInt]
    omega
  · rw [if_neg (mt ExtendedInt.ofInt_nonneg.mp hn), ExtendedInt.ofInt_add_ofInt,
      ExtendedInt.ofInt_le_ofInt]
    omega

/-- A start that is converted or absent, for a search forward. -/
theorem forwardFrom_startOr (hi : i < length) (fromIndex : Option Value) :
    forwardFrom length (fromIndex.elim 0 (·.plainNumber.whole)) ≤ .ofInt i ↔
      searchPosition length (startOr .zero fromIndex) ≤ i := by
  rw [← forwardFrom_le_iff hi]
  cases fromIndex with
  | none => rw [startOr_none, Option.elim_none, Double.whole_zero]
  | some v => rw [startOr_some, Option.elim_some, Double.whole_toInteger]

/-- A start that is converted or absent, for a search backward. -/
theorem lt_backwardCount_startOr (hlength : length ≤ maxLength) (fromIndex : Option Value) :
    i < backwardCount length (startOr (.ofNat (length - 1)) fromIndex) ↔
      .ofInt i ≤ backwardFrom length
        (fromIndex.elim (.ofInt (length - 1)) (·.plainNumber.whole)) := by
  cases fromIndex with
  | none =>
    have hlast : (Double.ofNat (length - 1)).toInt (length + 1) = (length - 1 : Nat) :=
      Double.toInt_ofNat (by omega) _
    have hcount : backwardCount length (.ofNat (length - 1)) = length := by
      simp only [backwardCount, hlast]
      rw [if_pos (by omega)]
      omega
    rw [startOr_none, Option.elim_none, hcount, le_backwardFrom_last]
  | some v =>
    rw [startOr_some, Option.elim_some, ← Double.whole_toInteger, le_backwardFrom_iff]
    exact (Eval.backwardCount_spec length _).2 i

theorem toInt_ofNat_length (hlength : length ≤ maxLength) :
    (Int64.ofNat length).toInt = length := by
  have hlimit : maxLength < 2 ^ 63 := by decide
  exact Int64.toInt_ofNat_of_lt (by omega)

/-- A negative start is added to the length without overflow, however far it was rounded up. -/
theorem toInt_length_add (hlength : length ≤ maxLength) {n : Int64} (hn : n < 0) :
    (Int64.ofNat length + n).toInt = length + n.toInt := by
  have hlimit : maxLength < 2 ^ 62 := by decide
  have hlow : -2 ^ 63 ≤ n.toInt := n.le_toInt
  have hnegative : n.toInt < 0 := Int64.lt_iff_toInt_lt.mp hn
  rw [Int64.toInt_add, toInt_ofNat_length hlength]
  exact Int.bmod_eq_of_le (by omega) (by omega)

theorem toInt_last (hlength : length ≤ maxLength) :
    (Int64.ofNat length - 1).toInt = length - 1 := by
  have hlimit : maxLength < 2 ^ 62 := by decide
  rw [Int64.toInt_sub, toInt_ofNat_length hlength, Int64.toInt_one]
  exact Int.bmod_eq_of_le (by omega) (by omega)

theorem toInt_min (m n : Int64) : (min m n).toInt = min m.toInt n.toInt := by
  show (if m ≤ n then m else n).toInt = _
  by_cases hle : m ≤ n
  · have := Int64.le_iff_toInt_le.mp hle
    rw [if_pos hle]
    omega
  · have := mt Int64.le_iff_toInt_le.mpr hle
    rw [if_neg hle]
    omega

/-- **Words of 64 bits are wide enough**: a search covers the indices up to the start in words. -/
theorem backwardCount_eq (hlength : length ≤ maxLength) (x : Double) :
    backwardCount length x = ((backwardStart64 length x).toInt + 1).toNat := by
  have hcases := x.toInt64_cases hlength
  have hnonneg : 0 ≤ x.toInt64 ↔ 0 ≤ x.toInt64.toInt := Int64.le_iff_toInt_le
  simp only [backwardStart64, backwardCount]
  generalize x.toInt (length + 1) = n at hcases ⊢
  by_cases hn : 0 ≤ x.toInt64
  · have hword := hnonneg.mp hn
    rw [if_pos hn, toInt_min, toInt_last hlength]
    split <;> omega
  · have hword := mt hnonneg.mpr hn
    rw [if_neg hn, toInt_length_add hlength (Int64.not_le.mp hn)]
    split <;> omega

end Starts

/-! ## Searches -/

theorem Double.equal_of_isZero {x : Double} (hx : x.isZero = true) (y : Double) :
    x.equal y = y.isZero := by
  have hnan : x.isNaN = false := by
    cases x <;> simp_all [isZero, isNaN]
  by_cases he : x = y
  · subst he
    simp [equal, hnan, hx]
  · simp [equal, hnan, hx, he]

theorem strictEquals_nan (v : Value) : (Value.number .nan).strictEquals v = false := by
  cases v with
  | number y => simp [Value.strictEquals, Double.equal, Double.isNaN]
  | _ => simp [Value.strictEquals]

/-- The zeros are strictly equal to the same values. -/
theorem strictEquals_of_isZero {x y : Double} (hx : x.isZero = true) (hy : y.isZero = true)
    (v : Value) : (Value.number x).strictEquals v = (Value.number y).strictEquals v := by
  cases v with
  | number z => simp [Value.strictEquals, Double.equal_of_isZero, hx, hy]
  | _ => simp [Value.strictEquals]

section Run

variable {caller : Caller κ σ} {w : World κ σ} {o : Value} {key : String} {length i : Nat}
  {fromIndex : Option Value}

namespace Eval

theorem toInteger_plain {v : Value} (hv : v.isObject = false) :
    toInteger caller v w = .ok v.plainNumber.toInteger w := by
  rw [toInteger, bind_of_ok (toNumber_plain hv)]
  rfl

theorem get_valueAt (ho : o.isObject = true)
    (hdata : ∀ p, w.heap.find? o key = some p → p.isData = true) :
    get caller o key w = .ok (w.heap.valueAt o key) w := by
  cases o with
  | object r =>
    rw [get_object, Heap.valueAt]
    cases hp : w.heap.find? (.object r) key with
    | none => rfl
    | some p =>
      cases p with
      | data => rfl
      | accessor => cases hdata _ hp
  | _ => cases ho

end Eval

namespace Heap.ArrayLike

open Eval

variable (hlike : w.heap.ArrayLike o length)

include hlike

theorem length_le : length ≤ maxLength := by
  rw [← hlike.size]
  exact Double.toUint32_le _

theorem searched : Eval.searched caller o w = .ok (o, length) w := by
  refine searched_eq hlike.isObject ?_
  rw [bind_of_ok (get_valueAt hlike.isObject hlike.data), toUint32,
    bind_of_ok (toNumber_plain hlike.plain)]
  exact congrArg (EStateM.Result.ok · w) hlike.size

theorem get_element (hi : i < length) :
    get caller o (indexKey i) w = .ok (w.heap.valueAt o (indexKey i)) w :=
  get_valueAt hlike.isObject (hlike.elements i hi)

theorem indexOf_eq (caller : Caller κ σ) (search : Value)
    (hplain : ∀ v, fromIndex = some v → v.isObject = false) :
    indexOf caller o search fromIndex w =
      (if length = 0 then pure (-1)
      else (forwardStart? length (startOr .zero fromIndex)).elim (pure (-1)) fun start =>
        searchUp caller o search start (length - start) : Eval κ σ Int) w := by
  rw [indexOf, bind_of_ok hlike.searched]
  by_cases h0 : length = 0
  · dsimp only
    rw [if_pos h0, if_pos h0]
  · cases fromIndex with
    | none =>
      dsimp only
      rw [if_neg h0, if_neg h0, pure_bind, startOr_none]
      cases forwardStart? length .zero <;> rfl
    | some v =>
      dsimp only
      rw [if_neg h0, if_neg h0, startOr_some, bind_of_ok (toInteger_plain (hplain v rfl))]
      cases forwardStart? length v.plainNumber.toInteger <;> rfl

theorem lastIndexOf_eq (caller : Caller κ σ) (search : Value)
    (hplain : ∀ v, fromIndex = some v → v.isObject = false) :
    lastIndexOf caller o search fromIndex w =
      searchDown caller o search
        (backwardCount length (startOr (.ofNat (length - 1)) fromIndex)) w := by
  rw [lastIndexOf, bind_of_ok hlike.searched]
  by_cases h0 : length = 0
  · have hnone : backwardCount length (startOr (.ofNat (length - 1)) fromIndex) = 0 :=
      Nat.eq_zero_of_le_zero (Nat.le_trans (backwardCount_spec length _).1 (Nat.le_of_eq h0))
    dsimp only
    rw [if_pos h0, hnone]
    rfl
  · cases fromIndex with
    | none =>
      dsimp only
      rw [if_neg h0, pure_bind, startOr_none]
    | some v =>
      dsimp only
      rw [if_neg h0, startOr_some, bind_of_ok (toInteger_plain (hplain v rfl))]

/-- **The search forward.** -/
theorem indexOf_spec (caller : Caller κ σ) (search : Value) (fromIndex : Option Value)
    (hplain : ∀ v, fromIndex = some v → v.isObject = false) :
    ∃ k, indexOf caller o search fromIndex w = .ok k w ∧
      FirstOf {i : Nat | forwardFrom length (fromIndex.elim 0 (·.plainNumber.whole)) ≤ .ofInt i ∧
        i < length ∧ w.heap.Matches o search i} k := by
  have hset : {i : Nat | forwardFrom length (fromIndex.elim 0 (·.plainNumber.whole)) ≤ .ofInt i ∧
      i < length ∧ w.heap.Matches o search i} =
      {i : Nat | searchPosition length (startOr .zero fromIndex) ≤ i ∧ i < length ∧
        w.heap.Matches o search i} := by
    ext i
    constructor
    · rintro ⟨hle, hi, hmatch⟩
      exact ⟨(forwardFrom_startOr hi fromIndex).mp hle, hi, hmatch⟩
    · rintro ⟨hle, hi, hmatch⟩
      exact ⟨(forwardFrom_startOr hi fromIndex).mpr hle, hi, hmatch⟩
  rw [hset, hlike.indexOf_eq caller search hplain]
  by_cases h0 : length = 0
  · rw [if_pos h0]
    exact ⟨-1, rfl, firstOf_empty fun i hi => by have := hi.2.1; omega⟩
  rw [if_neg h0]
  have hstart := forwardStart?_spec length (startOr .zero fromIndex)
  cases hs : forwardStart? length (startOr .zero fromIndex) with
  | none =>
    simp only [hs] at hstart
    exact ⟨-1, rfl, firstOf_empty fun i ⟨hle, hi, _⟩ => by omega⟩
  | some s =>
    simp only [hs] at hstart
    obtain ⟨hle, hfrom⟩ := hstart
    obtain ⟨k, hk, hfirst⟩ := searchUp_spec search (fun _ hi => hlike.get_element hi)
      (length - s) s (by omega)
    refine ⟨k, hk, ?_⟩
    simp only [hfrom] at hfirst
    exact hfirst

/-- **The search backward**, which covers the indices up to its start in words of 64 bits. -/
theorem lastIndexOf_spec (caller : Caller κ σ) (search : Value) (fromIndex : Option Value)
    (hplain : ∀ v, fromIndex = some v → v.isObject = false) :
    ∃ k, lastIndexOf caller o search fromIndex w = .ok k w ∧
      searchDown caller o search
        ((backwardStart64 length (startOr (.ofNat (length - 1)) fromIndex)).toInt + 1).toNat w =
          .ok k w ∧
      LastOf {i : Nat | .ofInt i ≤ backwardFrom length
        (fromIndex.elim (.ofInt (length - 1)) (·.plainNumber.whole)) ∧
          w.heap.Matches o search i} k := by
  have hcount := backwardCount_spec length (startOr (.ofNat (length - 1)) fromIndex)
  obtain ⟨k, hk, hlast⟩ := searchDown_spec search (fun _ hi => hlike.get_element hi) _ hcount.1
  refine ⟨k, ?_, ?_, ?_⟩
  · rw [hlike.lastIndexOf_eq caller search hplain, hk]
  · rw [← backwardCount_eq hlike.length_le, hk]
  · simp only [← lt_backwardCount_startOr hlike.length_le]
    exact hlast

/-- Without a start the searches cover all indices below the length. -/
theorem searches_all (caller : Caller κ σ) (search : Value) :
    ∃ k l, indexOf caller o search none w = .ok k w ∧
      lastIndexOf caller o search none w = .ok l w ∧
      FirstOf {i | i < length ∧ w.heap.Matches o search i} k ∧
      LastOf {i | i < length ∧ w.heap.Matches o search i} l := by
  obtain ⟨k, hk, hfirst⟩ := hlike.indexOf_spec caller search none (by simp)
  obtain ⟨l, hl, -, hlast⟩ := hlike.lastIndexOf_spec caller search none (by simp)
  refine ⟨k, l, hk, hl, ?_, ?_⟩
  · have hzero : forwardFrom length 0 = 0 := by simp [forwardFrom]
    have hall : ∀ i : Nat, (0 : ExtendedInt) ≤ .ofInt i := fun i =>
      ExtendedInt.ofInt_nonneg.mpr (Int.natCast_nonneg i)
    simpa only [Option.elim_none, hzero, hall, true_and] using hfirst
  · simpa only [Option.elim_none, le_backwardFrom_last, and_assoc] using hlast

end Heap.ArrayLike

end Run

/-! ## Elements in order -/

section Indexed

variable {α : Type} {f : α → Property} {xs : List α} {size : Property} {o : ObjectRecord κ}
  {h : Heap κ} {r : Ref} {value : Value} {writable enumerable configurable : Bool} {n i : Nat}
  (ho : h[r]? = some o) (hps : o.properties = .indexed f xs size)

include ho hps

theorem find?_indexed (hi : i < xs.length) :
    h.find? (.object r) (indexKey i) = some (f xs[i]) := by
  refine Heap.find?_of_own? ?_
  rw [Heap.own?_eq ho, ObjectRecord.own?, hps]
  refine Properties.get?_of_mem (Properties.nodup_indexed f xs size) ?_
  exact List.mem_append_left _ (List.mem_mapIdx.mpr ⟨i, hi, rfl⟩)

theorem find?_indexed_length : h.find? (.object r) "length" = some size := by
  refine Heap.find?_of_own? ?_
  rw [Heap.own?_eq ho, ObjectRecord.own?, hps]
  refine Properties.get?_of_mem (Properties.nodup_indexed f xs size) ?_
  exact List.mem_append_right _ (List.mem_singleton_self _)

/-- An object that is made of elements in order, as far as its length goes. -/
theorem arrayLike_indexed (hdata : ∀ x, (f x).isData = true)
    (hsize : size = .data value writable enumerable configurable)
    (hplain : value.isObject = false) (hn : value.plainNumber.toUint32 = n) (hle : n ≤ xs.length) :
    h.ArrayLike (.object r) n := by
  subst hsize
  have hlength := find?_indexed_length ho hps
  have hvalue : h.valueAt (.object r) "length" = value := by rw [Heap.valueAt, hlength]
  refine ⟨rfl, ?_, hvalue ▸ hplain, hvalue ▸ hn, ?_⟩
  · intro p hp
    rw [hlength] at hp
    cases hp
    rfl
  · intro i hi p hp
    rw [find?_indexed ho hps (Nat.lt_of_lt_of_le hi hle)] at hp
    cases hp
    exact hdata _

theorem matches_indexed (search : Value) (hi : i < xs.length)
    (hf : f xs[i] = .data value writable enumerable configurable) :
    h.Matches (.object r) search i ↔ search.strictEquals value = true := by
  simp [Heap.Matches, Heap.Holds, Heap.hasProperty, Heap.valueAt, find?_indexed ho hps hi, hf]

end Indexed

/-! ## New arrays -/

section NewArray

variable {values : List Value} {i : Nat} {h : Heap κ} {r : Ref} {proto : Option Value}
  (ho : h[r]? = some (arrayRecord values proto))

include ho

theorem arrayLike_arrayRecord (hlen : values.length ≤ maxLength) :
    h.ArrayLike (.object r) values.length :=
  arrayLike_indexed ho rfl (fun _ => rfl) rfl rfl (Double.toUint32_ofNat hlen) (Nat.le_refl _)

theorem matches_arrayRecord (search : Value) (hi : i < values.length) :
    h.Matches (.object r) search i ↔ search.strictEquals values[i] = true :=
  matches_indexed ho rfl search hi rfl

end NewArray

/-! ## Both searches -/

/-- An object of length three with a last element, a hole, and an inherited negative zero. -/
def sparseWorld : World (Behaviour Unit) Unit :=
  { heap := #[{ kind := .object, properties := [("1", .plain (.number (.ofRank true 0)))] },
      { kind := .object, prototype := some (.object 0),
        properties := [("2", .plain (.number .zero)), ("length", .plain (.number (.ofNat 3)))] }]
    host := () }

theorem sparseWorld_arrayLike : sparseWorld.heap.ArrayLike (.object 1) 3 := by
  have hlength : sparseWorld.heap.find? (.object 1) "length" =
      some (.plain (.number (.ofNat 3))) := by decide +kernel
  refine ⟨rfl, ?_, ?_, ?_, ?_⟩
  · intro p hp
    rw [hlength] at hp
    cases hp
    rfl
  · rw [Heap.valueAt, hlength]
    rfl
  · rw [Heap.valueAt, hlength]
    exact Double.toUint32_ofNat (by decide +kernel)
  · decide +kernel

namespace Eval

/--
**The search forward finds the first match.** The object searched has a plain length and no
accessor at its length or an index below it, and the start is plain or absent. The search ends in
the same world with the least index from its exact start on whose property, own or not, strictly
equals the value searched for. So no hole is found, nor not-a-number, and the zeros are found alike.
In a new array the search finds the first position in the list that the array was made from.
-/
theorem indexOf_first_match (caller : Caller κ σ) (search : Value) (w : World κ σ) :
    (∀ (o : Value) (length : Nat) (fromIndex : Option Value), w.heap.ArrayLike o length →
      (∀ v, fromIndex = some v → v.isObject = false) →
      ∃ k, indexOf caller o search fromIndex w = .ok k w ∧
        FirstOf {i : Nat | forwardFrom length (fromIndex.elim 0 (·.plainNumber.whole)) ≤ .ofInt i ∧
          i < length ∧ w.heap.Matches o search i} k ∧
        (∀ i : Nat, k = i → w.heap.hasProperty o (indexKey i) = true) ∧
        (search = .number .nan → k = -1) ∧
        ∀ x y, search = .number x → x.isZero = true → y.isZero = true →
          indexOf caller o (.number y) fromIndex w = .ok k w) ∧
    ∀ (values : List Value) (proto : Option Value), values.length ≤ maxLength →
      ∃ v w', newArray values proto w = .ok v w' ∧
        indexOf caller v search none w' =
          .ok ((values.findIdx? search.strictEquals).elim (-1) Int.ofNat) w' := by
  constructor
  · intro o length fromIndex hlike hplain
    obtain ⟨k, hk, hfirst⟩ := hlike.indexOf_spec caller search fromIndex hplain
    refine ⟨k, hk, hfirst, fun i hi => (hfirst.mem hi).2.2.1, ?_, ?_⟩
    · rintro rfl
      rcases hfirst with ⟨i, hi, -⟩ | ⟨-, hnone⟩
      · cases (strictEquals_nan _).symm.trans hi.1.2.2.2
      · exact hnone
    · rintro x y rfl hx hy
      obtain ⟨l, hl, hfirst'⟩ := hlike.indexOf_spec caller (.number y) fromIndex hplain
      simp only [Heap.Matches, Heap.Holds, strictEquals_of_isZero hx hy] at hfirst
      rw [hl, hfirst.unique hfirst']
  · intro values proto hlen
    refine ⟨_, _, alloc_eq (arrayRecord values proto) w, ?_⟩
    have ho : (w.heap.push (arrayRecord values proto))[w.heap.size]? =
        some (arrayRecord values proto) := Array.getElem?_push_size
    obtain ⟨k, hk, hfirst⟩ :=
      Heap.ArrayLike.indexOf_spec (w := ⟨w.heap.push (arrayRecord values proto), w.host⟩)
        (arrayLike_arrayRecord ho hlen) caller search none (by simp)
    have hset : {i : Nat | forwardFrom values.length 0 ≤ .ofInt i ∧ i < values.length ∧
        Heap.Matches (w.heap.push (arrayRecord values proto)) (.object w.heap.size) search i} =
        {i | ∃ hi : i < values.length, search.strictEquals values[i] = true} := by
      ext i
      constructor
      · rintro ⟨-, hi, hmatch⟩
        exact ⟨hi, (matches_arrayRecord ho search hi).mp hmatch⟩
      · rintro ⟨hi, hequal⟩
        exact ⟨by simp [forwardFrom], hi, (matches_arrayRecord ho search hi).mpr hequal⟩
    rw [Option.elim_none, hset] at hfirst
    rw [hk, hfirst.unique (firstOf_findIdx? values search.strictEquals)]

/-- From far before the first index, the inherited zero is found, and no hole. -/
theorem indexOf_first_match_sparse :
    let caller : Caller (Behaviour Unit) Unit := runBehaviour 0
    let start : Option Value := some (.number (.infinity true))
    indexOf caller (.object 1) (.number .zero) start sparseWorld = .ok 1 sparseWorld ∧
      indexOf caller (.object 1) .undefined start sparseWorld = .ok (-1) sparseWorld ∧
      ∃ v w', newArray [.null, .undefined] none sparseWorld = .ok v w' ∧
        indexOf caller v .undefined none w' = .ok 1 w' := by
  intro caller start
  have hplain : ∀ v, start = some v → v.isObject = false := by simp [start, Value.isObject]
  obtain ⟨k, hk, -⟩ := (indexOf_first_match caller (.number .zero) sparseWorld).1 (.object 1) 3
    start sparseWorld_arrayLike hplain
  obtain ⟨l, hl, -⟩ := (indexOf_first_match caller .undefined sparseWorld).1 (.object 1) 3
    start sparseWorld_arrayLike hplain
  have hfound :
      result? (indexOf caller (.object 1) (.number .zero) start) sparseWorld = some 1 := by
    decide +kernel
  have hmissed : result? (indexOf caller (.object 1) .undefined start) sparseWorld = some (-1) := by
    decide +kernel
  cases (result?_of_ok hk).symm.trans hfound
  cases (result?_of_ok hl).symm.trans hmissed
  exact ⟨hk, hl, (indexOf_first_match caller .undefined sparseWorld).2 [.null, .undefined] none
    (by decide +kernel)⟩

/--
**The search backward finds the last match, and its start does not overflow.** On such an object
the start that is negative is added to the length in words of 64 bits without overflow, and the
search covers the indices up to the start in words. It ends in the same world with the greatest
index up to its exact start whose property, own or not, strictly equals the value searched for.
Without a start both searches find an index or neither does, the one forward is no greater, and
they are the same exactly if no other index matches.
-/
theorem lastIndexOf_last_match (caller : Caller κ σ) (search : Value) {w : World κ σ} {o : Value}
    {length : Nat} (hlike : w.heap.ArrayLike o length) :
    (∀ fromIndex : Option Value, (∀ v, fromIndex = some v → v.isObject = false) →
      let x := startOr (.ofNat (length - 1)) fromIndex
      (x.toInt64 < 0 → (Int64.ofNat length + x.toInt64).toInt = length + x.toInt64.toInt) ∧
      ∃ k, lastIndexOf caller o search fromIndex w = .ok k w ∧
        searchDown caller o search ((backwardStart64 length x).toInt + 1).toNat w = .ok k w ∧
        LastOf {i : Nat | .ofInt i ≤ backwardFrom length
          (fromIndex.elim (.ofInt (length - 1)) (·.plainNumber.whole)) ∧
            w.heap.Matches o search i} k ∧
        (length = 0 → k = -1)) ∧
    ∃ k l, indexOf caller o search none w = .ok k w ∧ lastIndexOf caller o search none w = .ok l w ∧
      (k = -1 ↔ l = -1) ∧
      (k ≠ -1 → k ≤ l ∧ (k = l ↔ ∃! i, i < length ∧ w.heap.Matches o search i)) := by
  constructor
  · intro fromIndex hplain x
    obtain ⟨k, hk, hdown, hlast⟩ := hlike.lastIndexOf_spec caller search fromIndex hplain
    refine ⟨toInt_length_add hlike.length_le, k, hk, hdown, hlast, fun h0 => ?_⟩
    rcases hlast with ⟨i, hi, -⟩ | ⟨-, hnone⟩
    · have hlt := (lt_backwardCount_startOr hlike.length_le fromIndex).mpr hi.1.1
      have hle := (backwardCount_spec length (startOr (.ofNat (length - 1)) fromIndex)).1
      omega
    · exact hnone
  · obtain ⟨k, l, hk, hl, hfirst, hlast⟩ := hlike.searches_all caller search
    exact ⟨k, l, hk, hl, hfirst.lastOf hlast⟩

/-- The last zero is found from the end, and from negative zero on none is found. -/
theorem lastIndexOf_last_match_sparse :
    let caller : Caller (Behaviour Unit) Unit := runBehaviour 0
    let start : Option Value := some (.number (.ofRank true 0))
    lastIndexOf caller (.object 1) (.number .zero) none sparseWorld = .ok 2 sparseWorld ∧
      lastIndexOf caller (.object 1) (.number .zero) start sparseWorld = .ok (-1) sparseWorld := by
  intro caller start
  have hplain : ∀ v, start = some v → v.isObject = false := by simp [start, Value.isObject]
  have hsearch := (lastIndexOf_last_match caller (.number .zero) sparseWorld_arrayLike).1
  obtain ⟨-, k, hk, -⟩ := hsearch none (by simp)
  obtain ⟨-, l, hl, -⟩ := hsearch start hplain
  have hfound : result? (lastIndexOf caller (.object 1) (.number .zero) none) sparseWorld =
      some 2 := by decide +kernel
  have hmissed : result? (lastIndexOf caller (.object 1) (.number .zero) start) sparseWorld =
      some (-1) := by decide +kernel
  cases (result?_of_ok hk).symm.trans hfound
  cases (result?_of_ok hl).symm.trans hmissed
  exact ⟨hk, hl⟩

end Eval

end Es5
