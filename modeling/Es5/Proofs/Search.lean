import Es5.Proofs.Along
import Mathlib.Order.Bounds.Basic

/-!
# Searches after a conversion

A search reads the length, then converts the index to start from, and only then looks at elements.
The conversion may run code, so the elements are those that it leaves, while the length is the one
from before it.

* `FirstOf`, `LastOf`: the least and the greatest index in a set, or `-1`.
* `searchPosition`: the position that a start names in a length.
* `Eval.searchUp_spec`, `Eval.searchDown_spec`: a search over elements that are read without code.
* **`Eval.searches_follow_conversion`**: both searches with a start that is converted.
-/

namespace Es5

variable {κ σ : Type}

/-! ## What a search finds -/

/-- The least index in a set, or `-1` if it is empty. -/
def FirstOf (s : Set Nat) (k : Int) : Prop := (∃ i, IsLeast s i ∧ k = i) ∨ s = ∅ ∧ k = -1

/-- The greatest index in a set, or `-1` if it is empty. -/
def LastOf (s : Set Nat) (k : Int) : Prop := (∃ i, IsGreatest s i ∧ k = i) ∨ s = ∅ ∧ k = -1

/--
The position that a start names in a length: negative starts count from the end. An infinite
start counts as one just out of reach.
-/
def searchPosition (length : Nat) (start : Double) : Int :=
  let n := start.toInt (length + 1)
  if 0 ≤ n then n else length + n

/-- The object has an element at an index that strictly equals the value searched for. -/
def Heap.Holds (h : Heap κ) (o search : Value) (elements : Nat → Value) (i : Nat) : Prop :=
  h.hasProperty o (indexKey i) = true ∧ search.strictEquals (elements i) = true

theorem firstOf_empty {s : Set Nat} (h : ∀ i, i ∉ s) : FirstOf s (-1) :=
  Or.inr ⟨Set.eq_empty_of_forall_notMem h, rfl⟩

theorem lastOf_empty {s : Set Nat} (h : ∀ i, i ∉ s) : LastOf s (-1) :=
  Or.inr ⟨Set.eq_empty_of_forall_notMem h, rfl⟩

/-! ## Searches over elements that are read without code -/

namespace Eval

variable {caller : Caller κ σ} {o : Value} {w : World κ σ} {elements : Nat → Value}
  {length : Nat}

theorem holdsAt_spec (search : Value) {i : Nat}
    (hget : get caller o (indexKey i) w = .ok (elements i) w) :
    ∃ found, holdsAt caller o search i w = .ok found w ∧
      (found = true ↔ w.heap.Holds o search elements i) := by
  cases hown : w.heap.hasProperty o (indexKey i) with
  | false =>
    refine ⟨false, ?_, by simp [Heap.Holds, hown]⟩
    simp only [holdsAt, look, bind, EStateM.bind, hown]
    rfl
  | true =>
    refine ⟨search.strictEquals (elements i), ?_, by simp [Heap.Holds, hown]⟩
    simp only [holdsAt, look, bind, EStateM.bind, hown, if_true, hget]
    rfl

/-- The search upward, by induction on how many indices are left. -/
theorem searchUp_spec (search : Value)
    (hget : ∀ i < length, get caller o (indexKey i) w = .ok (elements i) w) :
    ∀ count index : Nat, index + count = length → ∃ k,
      searchUp caller o search index count w = .ok k w ∧
        FirstOf {i | index ≤ i ∧ i < length ∧ w.heap.Holds o search elements i} k
  | 0, index, hlen => ⟨-1, rfl, firstOf_empty fun i hi => by have := hi.1; have := hi.2.1; omega⟩
  | count + 1, index, hlen => by
    obtain ⟨found, hrun, hfound⟩ := holdsAt_spec search (hget index (by omega))
    cases found with
    | true =>
      refine ⟨index, bind_of_ok hrun, Or.inl ⟨index, ⟨⟨Nat.le_refl _, by omega, ?_⟩, ?_⟩, rfl⟩⟩
      · exact hfound.mp rfl
      · exact fun i hi => hi.1
    | false =>
      obtain ⟨k, hk, hfirst⟩ := searchUp_spec search hget count (index + 1) (by omega)
      refine ⟨k, (bind_of_ok hrun).trans hk, ?_⟩
      have hset : {i | index ≤ i ∧ i < length ∧ w.heap.Holds o search elements i} =
          {i | index + 1 ≤ i ∧ i < length ∧ w.heap.Holds o search elements i} := by
        ext i
        refine ⟨fun ⟨hle, hlt, hi⟩ => ⟨?_, hlt, hi⟩, fun ⟨hle, hlt, hi⟩ => ⟨by omega, hlt, hi⟩⟩
        have hne : i ≠ index := fun e => by
          subst e
          exact absurd (hfound.mpr hi) (by decide)
        omega
      rw [hset]
      exact hfirst

/-- The search downward, by induction on how many indices are left. -/
theorem searchDown_spec (search : Value)
    (hget : ∀ i < length, get caller o (indexKey i) w = .ok (elements i) w) :
    ∀ count ≤ length, ∃ k, searchDown caller o search count w = .ok k w ∧
      LastOf {i | i < count ∧ w.heap.Holds o search elements i} k
  | 0, _ => ⟨-1, rfl, lastOf_empty fun i hi => by have := hi.1; omega⟩
  | index + 1, hlen => by
    obtain ⟨found, hrun, hfound⟩ := holdsAt_spec search (hget index (by omega))
    cases found with
    | true =>
      refine ⟨index, bind_of_ok hrun, Or.inl ⟨index, ⟨⟨Nat.lt_succ_self _, ?_⟩, ?_⟩, rfl⟩⟩
      · exact hfound.mp rfl
      · exact fun i hi => Nat.le_of_lt_succ hi.1
    | false =>
      obtain ⟨k, hk, hlast⟩ := searchDown_spec search hget index (by omega)
      refine ⟨k, (bind_of_ok hrun).trans hk, ?_⟩
      have hset : {i | i < index + 1 ∧ w.heap.Holds o search elements i} =
          {i | i < index ∧ w.heap.Holds o search elements i} := by
        ext i
        refine ⟨fun ⟨hlt, hi⟩ => ⟨?_, hi⟩, fun ⟨hlt, hi⟩ => ⟨by omega, hi⟩⟩
        have hne : i ≠ index := fun e => by
          subst e
          exact absurd (hfound.mpr hi) (by decide)
        omega
      rw [hset]
      exact hlast

/-! ## Where the searches start -/

/-- A search upward covers the indices from the position of its start on. -/
theorem forwardStart?_spec (length : Nat) (x : Double) :
    match forwardStart? length x with
    | none => (length : Int) ≤ searchPosition length x
    | some start => start ≤ length ∧ ∀ i : Nat, start ≤ i ↔ searchPosition length x ≤ i := by
  simp only [forwardStart?, searchPosition]
  generalize x.toInt (length + 1) = n
  by_cases hlen : (length : Int) ≤ n
  · rw [if_pos hlen, if_pos (by omega)]
    exact hlen
  · by_cases hpos : 0 ≤ n
    · rw [if_neg hlen, if_pos hpos, if_pos hpos]
      exact ⟨by omega, fun i => by omega⟩
    · rw [if_neg hlen, if_neg hpos, if_neg hpos]
      exact ⟨by omega, fun i => by omega⟩

/-- A search downward covers the indices up to the position of its start. -/
theorem backwardCount_spec (length : Nat) (x : Double) :
    backwardCount length x ≤ length ∧
      ∀ i : Nat, i < backwardCount length x ↔ i < length ∧ (i : Int) ≤ searchPosition length x := by
  simp only [backwardCount, searchPosition]
  generalize x.toInt (length + 1) = n
  by_cases hpos : 0 ≤ n
  · rw [if_pos hpos, if_pos hpos]
    exact ⟨Nat.min_le_right _ _, fun i => by omega⟩
  · rw [if_neg hpos, if_neg hpos]
    exact ⟨by omega, fun i => by omega⟩

/-! ## Both searches -/

theorem searched_eq (ho : o.isObject = true)
    (hlen : (get caller o "length" >>= toUint32 caller) w = .ok length w) :
    searched caller o w = .ok (o, length) w := by
  have hobject : toObject o w = .ok o w := by
    rw [toObject, if_pos ho]
    rfl
  obtain ⟨v, w₁, hv, hn⟩ := ok_of_bind hlen
  rw [searched, bind_of_ok hobject, bind_of_ok hv, bind_of_ok hn]
  rfl

/--
**Searches follow the conversion of their start.** The length is that from before the conversion,
and the elements are those that it leaves. An empty object is not searched and nothing is
converted. Otherwise the start is converted once: a search ends in the world that the conversion
left, with the error it ended with if it failed.
-/
theorem searches_follow_conversion (search : Value) {start : Value} (ho : o.isObject = true)
    (hlen : (get caller o "length" >>= toUint32 caller) w = .ok length w) :
    (length = 0 → indexOf caller o search (some start) w = .ok (-1) w ∧
      lastIndexOf caller o search (some start) w = .ok (-1) w) ∧
    (length ≠ 0 →
      (∀ x w' elements, toInteger caller start w = .ok x w' →
        (∀ i < length, get caller o (indexKey i) w' = .ok (elements i) w') →
        (∃ k, indexOf caller o search (some start) w = .ok k w' ∧
          FirstOf {i | searchPosition length x ≤ i ∧ i < length ∧
            w'.heap.Holds o search elements i} k) ∧
        ∃ k, lastIndexOf caller o search (some start) w = .ok k w' ∧
          LastOf {i | (i : Int) ≤ searchPosition length x ∧ i < length ∧
            w'.heap.Holds o search elements i} k) ∧
      ∀ e w', toInteger caller start w = .error e w' →
        indexOf caller o search (some start) w = .error e w' ∧
        lastIndexOf caller o search (some start) w = .error e w') := by
  have hsearched := searched_eq ho hlen
  rw [indexOf, lastIndexOf, bind_of_ok hsearched, bind_of_ok hsearched]
  dsimp only
  refine ⟨fun h0 => ?_, fun h0 => ?_⟩
  · rw [if_pos h0, if_pos h0]
    exact ⟨rfl, rfl⟩
  · rw [if_neg h0, if_neg h0]
    refine ⟨fun x w' elements hx hget => ?_, fun e w' he => ⟨bind_of_error he, bind_of_error he⟩⟩
    rw [bind_of_ok hx, bind_of_ok hx]
    constructor
    · have hstart := forwardStart?_spec length x
      cases hs : forwardStart? length x with
      | none =>
        rw [hs] at hstart
        refine ⟨-1, rfl, firstOf_empty fun i ⟨hle, hlt, _⟩ => ?_⟩
        dsimp only at hstart
        omega
      | some s =>
        rw [hs] at hstart
        obtain ⟨hle, hfrom⟩ := hstart
        obtain ⟨k, hk, hfirst⟩ := searchUp_spec search hget (length - s) s (by omega)
        refine ⟨k, hk, ?_⟩
        simpa only [hfrom] using hfirst
    · obtain ⟨hle, hupto⟩ := backwardCount_spec length x
      obtain ⟨k, hk, hlast⟩ := searchDown_spec search hget _ hle
      refine ⟨k, hk, ?_⟩
      simpa only [hupto, and_assoc, and_left_comm] using hlast

end Eval

/-- User code that puts an element at index two of the object at `0` and makes its length zero. -/
def appendAndEmpty : Value → List Value → Program Unit := fun _ _ =>
  .perform (.put (.object 0) "2" .null false) fun _ =>
    .perform (.put (.object 0) "length" .null false) fun _ => .done (.boolean true)

/-- An object of length three, and an object that is converted by `appendAndEmpty`. -/
def appendWorld : World (Behaviour Unit) Unit :=
  ⟨#[{ kind := .object, properties := [("length", .plain (.number (.ofNat 3)))] },
    { kind := .function, call := some (.user appendAndEmpty) },
    { kind := .object, properties := [("valueOf", .plain (.object 1))] }], ()⟩

/-- Upward from index one stands the element that the conversion appended, downward nothing. -/
theorem Eval.searches_follow_conversion_append :
    let caller : Caller (Behaviour Unit) Unit := runBehaviour 1
    let o : Value := .object 0
    let elements (i : Nat) : Value := if i = 2 then .null else .undefined
    (get caller o "length" >>= toUint32 caller) appendWorld = .ok 3 appendWorld ∧
      ∃ x w', toInteger caller (.object 2) appendWorld = .ok x w' ∧
        (∀ i < 3, get caller o (indexKey i) w' = .ok (elements i) w') ∧
        indexOf caller o .null (some (.object 2)) appendWorld = .ok 2 w' ∧
        FirstOf {i | searchPosition 3 x ≤ i ∧ i < 3 ∧ w'.heap.Holds o .null elements i} 2 ∧
        lastIndexOf caller o .null (some (.object 2)) appendWorld = .ok (-1) w' ∧
        LastOf {i | (i : Int) ≤ searchPosition 3 x ∧ i < 3 ∧
          w'.heap.Holds o .null elements i} (-1) := by
  intro caller o elements
  have hthree : (Double.ofNat 3).toUint32 = 3 := by decide +kernel
  have hlen : (get caller o "length" >>= toUint32 caller) appendWorld = .ok 3 appendWorld := by
    show EStateM.Result.ok (Double.ofNat 3).toUint32 appendWorld = _
    rw [hthree]
  obtain ⟨x, w', hx, hget⟩ : ∃ x w', toInteger caller (.object 2) appendWorld = .ok x w' ∧
      ∀ i < 3, get caller o (indexKey i) w' = .ok (elements i) w' := by
    refine ⟨_, _, rfl, fun i hi => ?_⟩
    match i, hi with
    | 0, _ => rfl
    | 1, _ => rfl
    | 2, _ => rfl
  obtain ⟨⟨k, hk, hfirst⟩, l, hl, hlast⟩ :=
    ((searches_follow_conversion .null rfl hlen).2 (by omega)).1 x w' elements hx hget
  have hup : result? (indexOf caller o .null (some (.object 2))) appendWorld = some 2 := by
    decide +kernel
  have hdown : result? (lastIndexOf caller o .null (some (.object 2))) appendWorld =
      some (-1) := by decide +kernel
  cases (result?_of_ok hk).symm.trans hup
  cases (result?_of_ok hl).symm.trans hdown
  exact ⟨hlen, x, w', hx, hget, hk, hfirst, hl, hlast⟩

end Es5
