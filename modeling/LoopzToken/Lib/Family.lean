import Mathlib.Algebra.Ring.Nat
import Mathlib.Data.List.Nodup
import Mathlib.Data.List.Count
import Mathlib.Tactic.Common

/-!
# Lib.Family

Lists used as families: member `i` is `l[i]?`, and one member is replaced at a
time with `List.set`. The lemmas follow what the members *own*, `l.flatMap f`,
through such a replacement: ownership stays exclusive (`flatMap_set_nodup`), an
owner is unique (`owner_unique`), and ownership counts move by what the one
member gained or lost (`count_flatMap_set`, `countP_set_toNat`).
-/

namespace Lib

variable {α β : Type*}

/-- Replacing a member splits the list around it. -/
theorem set_split {l : List α} {i : ℕ} {a : α} (h : l[i]? = some a) :
    ∃ l₁ l₂, l = l₁ ++ a :: l₂ ∧ ∀ b, l.set i b = l₁ ++ b :: l₂ := by
  obtain ⟨hi, rfl⟩ := List.getElem?_eq_some_iff.mp h
  refine ⟨l.take i, l.drop (i + 1), ?_, fun b => ?_⟩
  · rw [← List.drop_eq_getElem_cons hi, List.take_append_drop]
  · rw [List.set_eq_take_append_cons_drop, if_pos hi]

/-- The members after a replacement: the new one, and the ones at the other
positions. -/
theorem mem_set_cases {l : List α} {i : ℕ} {b x : α} (hx : x ∈ l.set i b) :
    x = b ∨ ∃ j, i ≠ j ∧ l[j]? = some x := by
  obtain ⟨j, hj⟩ := List.mem_iff_getElem?.mp hx
  rw [List.getElem?_set] at hj
  split at hj
  · split at hj
    · exact .inl (Option.some.inj hj).symm
    · cases hj
  · rename_i hij
    exact .inr ⟨j, hij, hj⟩

theorem mem_set_of_ne {l : List α} {i j : ℕ} {b x : α} (hj : l[j]? = some x) (hij : i ≠ j) :
    x ∈ l.set i b := by
  refine List.mem_iff_getElem?.mpr ⟨j, ?_⟩
  rw [List.getElem?_set_ne hij]
  exact hj

theorem mem_set_self {l : List α} {i : ℕ} {a b : α} (hi : l[i]? = some a) : b ∈ l.set i b :=
  List.mem_iff_getElem?.mpr ⟨i, List.getElem?_set_self (List.getElem?_eq_some_iff.mp hi).1⟩

/-- A member that gives nothing away it does not own, and takes only what
nobody owns, keeps ownership exclusive. -/
theorem flatMap_set_nodup {l : List α} {i : ℕ} {a b : α} {f : α → List β}
    (h : l[i]? = some a) (hl : (l.flatMap f).Nodup) (hb : (f b).Nodup)
    (hown : ∀ x ∈ f b, x ∈ f a ∨ x ∉ l.flatMap f) : ((l.set i b).flatMap f).Nodup := by
  obtain ⟨l₁, l₂, rfl, hset⟩ := set_split h
  rw [hset]
  simp only [List.flatMap_append, List.flatMap_cons] at *
  rw [List.nodup_append'] at *
  obtain ⟨h₁, h₂, h₁₂⟩ := hl
  rw [List.nodup_append'] at *
  obtain ⟨-, h₂, ha₂⟩ := h₂
  refine ⟨h₁, ⟨hb, h₂, fun x hx hx₂ => ?_⟩, fun x hx₁ hx => ?_⟩
  · rcases hown x hx with h | h
    · exact ha₂ h hx₂
    · simp [hx₂] at h
  · rcases List.mem_append.mp hx with hx | hx
    · rcases hown x hx with h | h
      · exact h₁₂ hx₁ (List.mem_append_left _ h)
      · simp [hx₁] at h
    · exact h₁₂ hx₁ (List.mem_append_right _ hx)

/-- Exclusive ownership: two members owning one thing are the same member. -/
theorem owner_unique {l : List α} {f : α → List β} (hl : (l.flatMap f).Nodup) {i j : ℕ}
    {a b : α} (hi : l[i]? = some a) (hj : l[j]? = some b) {x : β} (ha : x ∈ f a)
    (hb : x ∈ f b) : i = j := by
  obtain ⟨hi', rfl⟩ := List.getElem?_eq_some_iff.mp hi
  obtain ⟨hj', rfl⟩ := List.getElem?_eq_some_iff.mp hj
  have hpair := List.pairwise_iff_getElem.mp (List.nodup_flatMap.mp hl).2
  rcases Nat.lt_trichotomy i j with h | h | h
  · exact absurd hb (hpair i j hi' hj' h ha)
  · exact h
  · exact absurd ha (hpair j i hj' hi' h hb)

theorem owns_nodup {l : List α} {f : α → List β} (hl : (l.flatMap f).Nodup) {a : α}
    (ha : a ∈ l) : (f a).Nodup :=
  (List.nodup_flatMap.mp hl).1 a ha

/-- What a replacement does to the number of times `x` is owned. -/
theorem count_flatMap_set [BEq β] {l : List α} {i : ℕ} {a b : α} {f : α → List β} (x : β)
    (h : l[i]? = some a) :
    ((l.set i b).flatMap f).count x + (f a).count x =
      (l.flatMap f).count x + (f b).count x := by
  obtain ⟨l₁, l₂, rfl, hset⟩ := set_split h
  rw [hset]
  simp only [List.flatMap_append, List.flatMap_cons, List.count_append]
  omega

/-- Counting one more element, with the test as a number. -/
theorem countP_cons_toNat (p : α → Bool) (a : α) (l : List α) :
    (a :: l).countP p = l.countP p + (p a).toNat := by
  rw [List.countP_cons]
  cases p a <;> rfl

/-- What a replacement does to the number of members that pass a test. -/
theorem countP_set_toNat {l : List α} {i : ℕ} {a b : α} (p : α → Bool) (h : l[i]? = some a) :
    (l.set i b).countP p + (p a).toNat = l.countP p + (p b).toNat := by
  obtain ⟨l₁, l₂, rfl, hset⟩ := set_split h
  rw [hset]
  simp only [List.countP_append, countP_cons_toNat]
  omega

/-- Counting by a family of tests: one more element counts once for each test it passes. -/
theorem sum_countP_cons (p : α → β → Bool) (l : List α) (b : β) (h : List β) :
    (l.map fun a => (b :: h).countP (p a)).sum =
      (l.map fun a => h.countP (p a)).sum + l.countP fun a => p a b := by
  induction l with
  | nil => rfl
  | cons a l ih =>
      rw [List.map_cons, List.sum_cons, ih, countP_cons_toNat, countP_cons_toNat, List.map_cons,
        List.sum_cons]
      omega

end Lib
