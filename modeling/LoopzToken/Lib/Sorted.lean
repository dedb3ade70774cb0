import Mathlib.Data.List.Pairwise
import Mathlib.Order.Lattice
import Mathlib.Tactic.Common

/-!
# Lib.Sorted

The first entries of a list that is sorted by a key: when they all have the same key,
without reference to the sorting (`take_same_iff`).
-/

namespace Lib

variable {α β : Type*}

/-- A list that is sorted both ways has one key. -/
theorem same_of_pairwise [PartialOrder β] {f : α → β} {l : List α}
    (hle : l.Pairwise fun a b => f a ≤ f b) (hge : l.Pairwise fun a b => f b ≤ f a) :
    ∀ a ∈ l, ∀ b ∈ l, f a = f b := by
  have heq : l.Pairwise fun a b => f a = f b :=
    hle.imp₂ (fun _ _ hab hba => le_antisymm hab hba) hge
  intro a ha b hb
  have hsymm : Std.Symm fun a b => f a = f b := ⟨fun _ _ h => h.symm⟩
  exact List.Pairwise.forall_of_forall (R := fun a b => f a = f b) (fun _ _ => rfl) heq ha hb

variable [LinearOrder β] {f : α → β}

/-- Entries with a smaller key stand in front. -/
theorem filter_lt_append_cons {l₁ l₂ : List α} {a : α}
    (hs : (l₁ ++ a :: l₂).Pairwise fun a b => f a ≤ f b) :
    ((l₁ ++ a :: l₂).filter fun b => f b < f a).length ≤ l₁.length := by
  obtain ⟨-, hs₂, -⟩ := List.pairwise_append.mp hs
  have hno : (a :: l₂).filter (fun b => f b < f a) = [] := by
    refine List.filter_eq_nil_iff.mpr fun b hb => ?_
    rcases List.mem_cons.mp hb with rfl | hb
    · simp
    · simpa using (List.pairwise_cons.mp hs₂).1 b hb
  rw [List.filter_append, hno, List.append_nil]
  exact List.length_filter_le ..

variable {l : List α} {n : ℕ}

/-- If the first `n` entries have one key and some entry has a smaller key than `a`, then
all of the first `n` have, and there are `n` of them. -/
theorem le_length_filter_of_take_same (hs : l.Pairwise fun a b => f a ≤ f b)
    (hsame : ∀ a ∈ l.take n, ∀ b ∈ l.take n, f a = f b) {a b : α} (ha : a ∈ l) (hb : b ∈ l)
    (hba : f b < f a) : n ≤ (l.filter fun b => f b < f a).length := by
  have hl := List.take_append_drop n l
  have hcross : ∀ c ∈ l.take n, ∀ d ∈ l.drop n, f c ≤ f d :=
    (List.pairwise_append.mp (hl.symm ▸ hs)).2.2
  rw [← hl] at ha hb
  have hdrop : a ∈ l.drop n := by
    rcases List.mem_append.mp ha with ha | ha
    · rcases List.mem_append.mp hb with hb | hb
      · exact absurd (hsame b hb a ha) hba.ne
      · exact absurd (hcross a ha b hb) hba.not_ge
    · exact ha
  have hlt : ∀ c ∈ l.take n, decide (f c < f a) = true := by
    intro c hc
    refine decide_eq_true (lt_of_le_of_lt ?_ hba)
    rcases List.mem_append.mp hb with hb | hb
    · exact (hsame c hc b hb).le
    · exact hcross c hc b hb
  have hlen : (l.take n).length = n := by
    have hpos := List.length_pos_of_mem hdrop
    rw [List.length_drop] at hpos
    rw [List.length_take]
    omega
  rw [← hl, List.filter_append, List.length_append, List.filter_eq_self.mpr hlt, hlen]
  exact Nat.le_add_right ..

/-- In front of one of the first `n` entries there are fewer than `n`. -/
theorem length_filter_lt_of_mem_take (hs : l.Pairwise fun a b => f a ≤ f b) {a : α}
    (ha : a ∈ l.take n) : (l.filter fun b => f b < f a).length < n := by
  obtain ⟨l₁, l₂, htake⟩ := List.append_of_mem ha
  have hl := List.take_append_drop n l
  have hlen := congrArg List.length htake
  rw [htake, List.append_assoc, List.cons_append] at hl
  have hfew := filter_lt_append_cons (f := f) (hl.symm ▸ hs)
  rw [hl] at hfew
  rw [List.length_take, List.length_append, List.length_cons] at hlen
  omega

/-- **When the first `n` entries have one key**: every entry has the least key, or at
least `n` entries have a smaller one. -/
theorem take_same_iff (hs : l.Pairwise fun a b => f a ≤ f b) (n : ℕ) :
    (∀ a ∈ l.take n, ∀ b ∈ l.take n, f a = f b) ↔
      ∀ a ∈ l, n ≤ (l.filter fun b => f b < f a).length ∨ ∀ b ∈ l, f a ≤ f b := by
  constructor
  · intro hsame a ha
    by_cases hleast : ∀ b ∈ l, f a ≤ f b
    · exact .inr hleast
    · simp only [not_forall, not_le] at hleast
      obtain ⟨b, hb, hba⟩ := hleast
      exact .inl (le_length_filter_of_take_same hs hsame ha hb hba)
  · intro h
    have hle : ∀ a ∈ l.take n, ∀ b ∈ l.take n, f a ≤ f b := by
      intro a ha b hb
      rcases h a (List.mem_of_mem_take ha) with hn | hleast
      · exact absurd (length_filter_lt_of_mem_take hs ha) hn.not_gt
      · exact hleast b (List.mem_of_mem_take hb)
    exact fun a ha b hb => (hle a ha b hb).antisymm (hle b hb a ha)

end Lib
