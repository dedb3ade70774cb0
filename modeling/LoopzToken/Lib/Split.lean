import Mathlib.Data.List.Basic

/-!
# Lib.Split

Splitting a list at every occurrence of a separator. `splitOn_eq_iff` says what the
parts are: the only lists without a separator that the list is put together from.
-/

namespace Lib

variable {α : Type*} [DecidableEq α] {a : α}

/-- No part contains the separator. -/
theorem not_mem_of_mem_splitOn {l p : List α} (hp : p ∈ l.splitOn a) : a ∉ p := by
  induction l generalizing p with
  | nil =>
      rw [List.splitOn_nil, List.mem_singleton] at hp
      simp [hp]
  | cons x l ih =>
      obtain ⟨q, qs, hq⟩ := List.exists_cons_of_ne_nil (List.splitOn_ne_nil a l)
      rw [hq] at ih
      rw [List.splitOn_cons_eq_if_modifyHead, hq] at hp
      by_cases hx : x = a
      · simp only [hx, beq_self_eq_true, if_true] at hp
        rcases List.mem_cons.mp hp with rfl | hp
        · exact List.not_mem_nil
        · exact ih hp
      · simp only [beq_eq_false_iff_ne.mpr hx, Bool.false_eq_true, if_false,
          List.modifyHead_cons] at hp
        rcases List.mem_cons.mp hp with rfl | hp
        · exact List.not_mem_cons_of_ne_of_not_mem (Ne.symm hx) (ih (List.mem_cons_self ..))
        · exact ih (List.mem_cons_of_mem _ hp)

/-- **What the parts are.** -/
theorem splitOn_eq_iff {l : List α} {parts : List (List α)} (h : parts ≠ []) :
    l.splitOn a = parts ↔ l = [a].intercalate parts ∧ ∀ p ∈ parts, a ∉ p := by
  constructor
  · intro hl
    subst hl
    exact ⟨(List.intercalate_splitOn a).symm, fun p => not_mem_of_mem_splitOn⟩
  · intro hl
    obtain ⟨rfl, hp⟩ := hl
    exact List.splitOn_intercalate a hp h

theorem splitOn_eq_two {l p q : List α} :
    l.splitOn a = [p, q] ↔ l = p ++ a :: q ∧ a ∉ p ∧ a ∉ q := by
  rw [splitOn_eq_iff (by simp)]
  simp [List.intercalate]

theorem splitOn_eq_four {l p q r s : List α} :
    l.splitOn a = [p, q, r, s] ↔
      l = p ++ a :: q ++ a :: r ++ a :: s ∧ a ∉ p ∧ a ∉ q ∧ a ∉ r ∧ a ∉ s := by
  rw [splitOn_eq_iff (by simp)]
  simp [List.intercalate]

/-- There is one part more than there are separators. -/
theorem length_splitOn (l : List α) : (l.splitOn a).length = l.count a + 1 := by
  induction l with
  | nil => rfl
  | cons x l ih =>
      rw [List.splitOn_cons_eq_if_modifyHead]
      by_cases hx : x = a <;> simp [hx, ih]

/-- What follows the last separator. -/
def afterLast (a : α) (l : List α) : List α := (l.reverse.takeWhile (· ≠ a)).reverse

theorem afterLast_append (l₁ : List α) {l₂ : List α} (h : a ∉ l₂) :
    afterLast a (l₁ ++ a :: l₂) = l₂ := by
  have hne : ∀ x ∈ l₂.reverse, decide (x ≠ a) = true := by
    intro x hx
    have hxl := List.mem_reverse.mp hx
    exact decide_eq_true fun heq => h (heq ▸ hxl)
  rw [afterLast, List.reverse_append, List.reverse_cons, List.append_assoc,
    List.takeWhile_append_of_pos hne]
  simp

end Lib
