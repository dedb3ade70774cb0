import Mathlib.Data.List.MinMax
import Mathlib.Data.List.GetD
import Mathlib.Tactic.Common

/-!
# Lib.Leftmost

Selecting from a list in which some entries are accepted: the accepted entry of
the greatest rank, the leftmost one of several.

`Leftmost` says it by positions, and `selected` computes it, as a loop that keeps the
best so far does (`selected_eq_some_iff`). It does not depend on an entry that is not the
selected one (`selected_eraseIdx`).
-/

namespace Lib

variable {α β : Type*}

/-- The entries that are accepted. -/
def survivors (xs : List (α × Bool)) : List α := (xs.filter (·.2)).map (·.1)

@[simp] theorem survivors_nil : survivors ([] : List (α × Bool)) = [] := rfl

@[simp] theorem survivors_cons_true (a : α) (xs : List (α × Bool)) :
    survivors ((a, true) :: xs) = a :: survivors xs := rfl

@[simp] theorem survivors_cons_false (a : α) (xs : List (α × Bool)) :
    survivors ((a, false) :: xs) = survivors xs := rfl

theorem mem_survivors {xs : List (α × Bool)} {a : α} : a ∈ survivors xs ↔ (a, true) ∈ xs := by
  simp [survivors]

/-- The entry that a loop which keeps the best so far ends with. -/
def selected [LinearOrder β] (f : α → β) (xs : List (α × Bool)) : Option α :=
  (survivors xs).argmax f

theorem foldl_survivors [LinearOrder β] (f : α → β) (xs : List (α × Bool)) :
    (survivors xs).foldl (List.argAux fun b c => f c < f b) none = selected f xs := rfl

/-- `a`, at position `i`, is accepted; no accepted entry has a greater rank, and none
to its left the same. -/
structure Leftmost [LinearOrder β] (f : α → β) (xs : List (α × Bool)) (i : ℕ) (a : α) : Prop where
  here : xs[i]? = some (a, true)
  best : ∀ k b, xs[k]? = some (b, true) → f b < f a ∨ f b = f a ∧ i ≤ k

variable [LinearOrder β] {f : α → β} {xs : List (α × Bool)} {i j : ℕ} {a b : α}

/-- There is one position to select. -/
theorem Leftmost.unique (h : Leftmost f xs i a) (h' : Leftmost f xs j b) : i = j ∧ a = b := by
  have hij : i = j := by
    rcases h.best j b h'.here with hlt | ⟨heq, hle⟩
    · rcases h'.best i a h.here with hgt | ⟨heq, -⟩
      · exact absurd hlt hgt.asymm
      · exact absurd hlt (heq ▸ lt_irrefl _)
    · rcases h'.best i a h.here with hgt | ⟨-, hge⟩
      · exact absurd hgt (heq ▸ lt_irrefl _)
      · exact hle.antisymm hge
  subst hij
  have hab := h.here.symm.trans h'.here
  exact ⟨rfl, (Prod.mk.inj (Option.some.inj hab)).1⟩

/-- An entry that is not accepted only moves the positions. -/
theorem leftmost_cons_false :
    Leftmost f ((b, false) :: xs) i a ↔ ∃ j, i = j + 1 ∧ Leftmost f xs j a := by
  constructor
  · intro h
    cases i with
    | zero => exact absurd h.here (by simp)
    | succ j =>
        refine ⟨j, rfl, by simpa using h.here, fun k c hk => ?_⟩
        simpa using h.best (k + 1) c (by simpa using hk)
  · intro h
    obtain ⟨j, rfl, h⟩ := h
    refine ⟨by simpa using h.here, fun k c hk => ?_⟩
    cases k with
    | zero => simp at hk
    | succ k => simpa using h.best k c (by simpa using hk)

/-- An accepted entry in front is selected unless a later one has a greater rank. -/
theorem leftmost_cons_true :
    Leftmost f ((b, true) :: xs) i a ↔
      (i = 0 ∧ a = b ∧ ∀ c ∈ survivors xs, f c ≤ f b) ∨
        ∃ j, i = j + 1 ∧ Leftmost f xs j a ∧ f b < f a := by
  constructor
  · intro h
    cases i with
    | zero =>
        obtain rfl : b = a := by simpa using h.here
        refine .inl ⟨rfl, rfl, fun c hc => ?_⟩
        obtain ⟨k, hk⟩ := List.mem_iff_getElem?.mp (mem_survivors.mp hc)
        rcases h.best (k + 1) c (by simpa using hk) with hlt | ⟨heq, -⟩
        · exact hlt.le
        · exact heq.le
    | succ j =>
        refine .inr ⟨j, rfl, ⟨by simpa using h.here, fun k c hk => ?_⟩, ?_⟩
        · simpa using h.best (k + 1) c (by simpa using hk)
        · simpa using h.best 0 b rfl
  · intro h
    rcases h with ⟨rfl, rfl, hle⟩ | ⟨j, rfl, h, hlt⟩
    · refine ⟨rfl, fun k c hk => ?_⟩
      cases k with
      | zero =>
          obtain rfl : a = c := by simpa using hk
          exact .inr ⟨rfl, Nat.le_refl _⟩
      | succ k =>
          have hmem := mem_survivors.mpr (List.mem_iff_getElem?.mpr ⟨k, by simpa using hk⟩)
          rcases (hle c hmem).lt_or_eq with hlt | heq
          · exact .inl hlt
          · exact .inr ⟨heq, Nat.zero_le _⟩
    · refine ⟨by simpa using h.here, fun k c hk => ?_⟩
      cases k with
      | zero =>
          obtain rfl : b = c := by simpa using hk
          exact .inl hlt
      | succ k => simpa using h.best k c (by simpa using hk)

/-- **Selection by position**: the first greatest of the accepted entries. -/
theorem selected_eq_some_iff : selected f xs = some a ↔ ∃ i, Leftmost f xs i a := by
  unfold selected
  induction xs generalizing a with
  | nil =>
      refine ⟨fun h => (by cases h), fun h => ?_⟩
      obtain ⟨i, hi⟩ := h
      exact absurd hi.here (by simp)
  | cons p xs ih =>
      obtain ⟨b, accepted⟩ := p
      cases accepted with
      | false =>
          rw [survivors_cons_false, ih]
          simp [leftmost_cons_false]
      | true =>
          rw [survivors_cons_true, List.argmax_cons]
          simp only [leftmost_cons_true]
          cases hmax : (survivors xs).argmax f with
          | none =>
              -- nothing else is accepted
              have hnil := List.argmax_eq_none.mp hmax
              have hno : ∀ j, ¬ Leftmost f xs j a := fun j hj => by
                simp [ih.mpr ⟨j, hj⟩] at hmax
              simp [hnil, hno, eq_comm]
          | some m =>
              obtain ⟨j, hj⟩ := ih.mp hmax
              have hmem := List.argmax_mem hmax
              by_cases hlt : f b < f m
              · simp only [hlt, if_true, Option.some.injEq]
                constructor
                · intro h
                  subst h
                  exact ⟨j + 1, .inr ⟨j, rfl, hj, hlt⟩⟩
                · intro h
                  obtain ⟨i, ⟨-, -, hle⟩ | ⟨k, -, hk, -⟩⟩ := h
                  · exact absurd (hle m hmem) (not_le.mpr hlt)
                  · exact (hj.unique hk).2
              · simp only [hlt, if_false, Option.some.injEq]
                constructor
                · intro h
                  have hle : ∀ c ∈ survivors xs, f c ≤ f b := fun c hc =>
                    (List.le_of_mem_argmax hc hmax).trans (not_lt.mp hlt)
                  exact ⟨0, .inl ⟨rfl, h.symm, hle⟩⟩
                · intro h
                  obtain ⟨i, ⟨-, rfl, -⟩ | ⟨k, -, hk, hgt⟩⟩ := h
                  · rfl
                  · exact absurd ((hj.unique hk).2 ▸ hgt) hlt

/-- Nothing is selected when nothing is accepted. -/
theorem selected_eq_none_iff : selected f xs = none ↔ ∀ a, (a, true) ∉ xs := by
  rw [selected, List.argmax_eq_none, List.eq_nil_iff_forall_not_mem]
  simp only [mem_survivors]

/-- Where the entries behind a removed one move to. -/
theorem Leftmost.eraseIdx (h : Leftmost f xs i a) (hij : i ≠ j) :
    ∃ k, Leftmost f (xs.eraseIdx j) k a := by
  refine ⟨if i < j then i else i - 1, ?_, fun k b hk => ?_⟩
  · have hi := h.here
    split <;> rw [List.getElem?_eraseIdx]
    · rw [if_pos ‹_›, hi]
    · rw [if_neg (by omega), show i - 1 + 1 = i by omega, hi]
  · rw [List.getElem?_eraseIdx] at hk
    split at hk
    · rcases h.best k b hk with hlt | ⟨heq, hle⟩
      · exact .inl hlt
      · exact .inr ⟨heq, by split <;> omega⟩
    · rcases h.best (k + 1) b hk with hlt | ⟨heq, hle⟩
      · exact .inl hlt
      · exact .inr ⟨heq, by split <;> omega⟩

/-- Removing an entry that is not the selected one changes nothing. -/
theorem selected_eraseIdx (hj : ∀ a, ¬ Leftmost f xs j a) :
    selected f (xs.eraseIdx j) = selected f xs := by
  cases hmax : selected f xs with
  | none =>
      rw [selected_eq_none_iff] at hmax ⊢
      exact fun a ha => hmax a (List.mem_of_mem_eraseIdx ha)
  | some a =>
      obtain ⟨i, hi⟩ := selected_eq_some_iff.mp hmax
      have hij : i ≠ j := fun heq => hj a (heq ▸ hi)
      exact selected_eq_some_iff.mpr (hi.eraseIdx hij)

end Lib
