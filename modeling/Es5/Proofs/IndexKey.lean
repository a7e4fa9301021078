import Es5.Object.Index

/-!
# Keys of indices

Every natural below `maxLength` is the index that its own key spells, and no other key spells it.

* `spelled_toDigits`: decimal digits spell their number.
* **`arrayIndex?_eq_some_iff`**: which keys are indices.
-/

namespace Es5

theorem spelled_toDigits (n : Nat) : spelled (Nat.toDigits 10 n) = n :=
  Nat.ofDigitChars_ten_toDigits

theorem toList_indexKey (i : Nat) : (indexKey i).toList = Nat.toDigits 10 i :=
  String.toList_ofList

theorem indexKey_injective {i j : Nat} (h : indexKey i = indexKey j) : i = j := by
  have hdigits : Nat.toDigits 10 i = Nat.toDigits 10 j := by
    rw [← toList_indexKey, h, toList_indexKey]
  rw [← spelled_toDigits i, hdigits, spelled_toDigits]

/-- **A key is an index exactly if it is the decimal of a natural below `maxLength`.** -/
theorem arrayIndex?_eq_some_iff {key : String} {i : Nat} :
    arrayIndex? key = some i ↔ i < maxLength ∧ key = indexKey i := by
  constructor
  · intro h
    simp only [arrayIndex?] at h
    split at h
    · split at h
      · rename_i hspelled
        simp only [Bool.and_eq_true, decide_eq_true_eq, beq_iff_eq] at hspelled
        cases h
        exact ⟨hspelled.1, hspelled.2.symm⟩
      · cases h
    · cases h
  · rintro ⟨hi, rfl⟩
    have hlimit : maxLength < 10 ^ 10 := by decide
    have hlength : (Nat.toDigits 10 i).length ≤ 10 :=
      (Nat.length_toDigits_le_iff (by omega) (by omega)).mpr (by omega)
    have hdigits : (Nat.toDigits 10 i).all Char.isDigit = true :=
      List.all_eq_true.mpr fun c hc => Nat.isDigit_of_mem_toDigits (by omega) (by omega) hc
    rw [arrayIndex?, toList_indexKey, spelled_toDigits, hdigits]
    simp [hlength, hi]

theorem arrayIndex?_length : arrayIndex? "length" = none := by decide +kernel

theorem ne_length_of_arrayIndex? {key : String} {i : Nat} (h : arrayIndex? key = some i) :
    key ≠ "length" := by
  rintro rfl
  rw [arrayIndex?_length] at h
  cases h

end Es5
