import Es5.Text.Space
import Mathlib.Data.List.TakeWhile

/-!
# Lists without some elements at their ends

A list is stripped of some kind of element if these are taken from either end of it until there are
none left there. There is one way to do so.

* `takeWhile_run`, `dropWhile_run`, `exists_run`: a list cut after a run of such elements.
* `StrippedOf`: what is left of a list.
* **`strippedOf_iff`**: lists are trimmed by stripping them.
* `trimList_eq_self`: a list without such elements is left as it is.
-/

namespace Es5.Text

variable {α : Type} {p : α → Bool}

/-! ## Runs -/

section

variable {run t : List α} (hrun : ∀ x ∈ run, p x = true)
  (ht : ∀ x, t.head? = some x → p x = false)

include hrun ht

theorem takeWhile_run : (run ++ t).takeWhile p = run := by
  rw [List.takeWhile_append_of_pos hrun]
  cases t with
  | nil => exact List.append_nil run
  | cons x t => rw [List.takeWhile_cons_of_neg (by simp [ht x rfl]), List.append_nil]

theorem dropWhile_run : (run ++ t).dropWhile p = t := by
  rw [List.dropWhile_append_of_pos hrun]
  cases t with
  | nil => rfl
  | cons x t => exact List.dropWhile_cons_of_neg (by simp [ht x rfl])

end

/-- What is dropped from the start of a list is a run, and what is left does not start so. -/
theorem exists_run (p : α → Bool) (xs : List α) : ∃ run, xs = run ++ xs.dropWhile p ∧
    (∀ x ∈ run, p x = true) ∧ ∀ x, (xs.dropWhile p).head? = some x → p x = false := by
  refine ⟨xs.takeWhile p, List.takeWhile_append_dropWhile.symm,
    fun x hx => List.mem_takeWhile_imp hx, fun x hx => ?_⟩
  have hnot := List.head?_dropWhile_not p xs
  rw [hx] at hnot
  simpa using hnot

/-! ## Both ends -/

/-- What is left of a list without the elements with `P` at its ends. -/
structure StrippedOf (P : α → Prop) (xs ys : List α) : Prop where
  split : ∃ before after, xs = before ++ ys ++ after ∧ (∀ x ∈ before, P x) ∧ ∀ x ∈ after, P x
  head : ∀ x, ys.head? = some x → ¬P x
  last : ∀ x, ys.getLast? = some x → ¬P x

/-- **There is one way to strip a list**, and it is how lists are trimmed. -/
theorem strippedOf_iff {xs ys : List α} :
    StrippedOf (fun x => p x = true) xs ys ↔ ys = trimList p xs := by
  constructor
  · rintro ⟨⟨before, after, rfl, hbefore, hafter⟩, hhead, hlast⟩
    simp only [Bool.not_eq_true] at hhead hlast
    cases ys with
    | nil =>
      have hall : ∀ x ∈ before ++ after, p x = true := fun x hx =>
        (List.mem_append.mp hx).elim (hbefore x) (hafter x)
      have hdrop := dropWhile_run (t := []) hall nofun
      rw [List.append_nil] at hdrop ⊢
      rw [trimList, hdrop]
      rfl
    | cons y ys =>
      have hafter' : ∀ x ∈ after.reverse, p x = true := fun x hx =>
        hafter x (List.mem_reverse.mp hx)
      have hdrop := dropWhile_run (t := y :: ys ++ after) hbefore hhead
      have hdrop' := dropWhile_run (t := (y :: ys).reverse) hafter' fun x hx =>
        hlast x (by rwa [List.head?_reverse] at hx)
      rw [trimList, List.append_assoc, hdrop, List.reverse_append, hdrop', List.reverse_reverse]
  · rintro rfl
    obtain ⟨before, hxs, hbefore, hhead⟩ := exists_run p xs
    obtain ⟨after, hrest, hafter, hlast⟩ := exists_run p (xs.dropWhile p).reverse
    simp only [← Bool.not_eq_true] at hhead hlast
    have hrest' : xs.dropWhile p = trimList p xs ++ after.reverse := by
      have hreverse := congrArg List.reverse hrest
      rwa [List.reverse_reverse, List.reverse_append] at hreverse
    refine ⟨⟨before, after.reverse, ?_, hbefore, fun x hx => ?_⟩, fun x hx => ?_, fun x hx => ?_⟩
    · rw [List.append_assoc, ← hrest', ← hxs]
    · exact hafter x (List.mem_reverse.mp hx)
    · refine hhead x ?_
      rw [hrest', List.head?_append, hx]
      rfl
    · refine hlast x ?_
      rwa [trimList, List.getLast?_reverse] at hx

theorem trimList_eq_self {xs : List α} (h : ∀ x ∈ xs, p x = false) : trimList p xs = xs := by
  refine (strippedOf_iff.mp ⟨⟨[], [], by simp, nofun, nofun⟩, fun x hx => ?_, fun x hx => ?_⟩).symm
  · simp [h x (List.mem_of_mem_head? hx)]
  · simp [h x (List.mem_of_getLast? hx)]

end Es5.Text
