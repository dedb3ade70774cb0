import Mathlib.Order.Filter.AtTopBot.Basic
import Mathlib.Order.OrderIsoNat
import LoopzToken.Lib.Machine

/-!
# Lib.Path

Infinite runs of a labelled machine, and the rules by which something is proved to happen on
them. Fairness of a party is stated over times: whenever it is not at rest, it moves at that
time or later. What nobody else changes then holds until the party moves (`exists_move`), and
a party whose moves all lower a rank cannot be unfinished for ever (`not_of_rank`).

Times are natural numbers, so "from some time on" and "again and again" are Mathlib's
`∀ᶠ n in atTop` and `∃ᶠ n in atTop`.
-/

namespace Lib

open Filter

namespace Machine

variable {σ α : Type*} {M : Machine σ α}

/-- An infinite run: the state at each time, and the label of the step taken from it. -/
structure Path (M : Machine σ α) where
  state : ℕ → σ
  label : ℕ → α
  step : ∀ n, M.step (state n) (label n) = some (state (n + 1))

/-- What every step preserves holds at all times. -/
theorem Path.invariant {I : σ → Prop} (π : M.Path)
    (hstep : ∀ s a t, I s → M.step s a = some t → I t) (h0 : I (π.state 0)) (n : ℕ) :
    I (π.state n) := by
  induction n with
  | zero => exact h0
  | succ n ih => exact hstep _ _ _ ih (π.step n)

/-- The steps from time `n` on, `d` of them, newest first. -/
def Path.history (π : M.Path) (n : ℕ) : ℕ → List (σ × α)
  | 0 => []
  | d + 1 => (π.state (n + d), π.label (n + d)) :: π.history n d

/-- A part of an infinite run is a run. -/
theorem Path.run (π : M.Path) (n d : ℕ) : M.Run (π.state n) (π.history n d) (π.state (n + d)) := by
  induction d with
  | zero => exact .refl
  | succ d ih => exact .step ih (π.step (n + d))

theorem Path.forall_history {P : σ × α → Prop} {π : M.Path} {n : ℕ}
    (h : ∀ m, n ≤ m → P (π.state m, π.label m)) (d : ℕ) : ∀ p ∈ π.history n d, P p := by
  induction d with
  | zero => simp [Path.history]
  | succ d ih => exact List.forall_mem_cons.mpr ⟨h _ (Nat.le_add_right n d), ih⟩

/-- A step in front of a path. -/
def Path.cons (π : M.Path) (s : σ) (a : α) (hs : M.step s a = some (π.state 0)) : M.Path where
  state
    | 0 => s
    | n + 1 => π.state n
  label
    | 0 => a
    | n + 1 => π.label n
  step
    | 0 => hs
    | n + 1 => π.step n

section Cons

variable {π : M.Path} {s : σ} {a : α} {hs : M.step s a = some (π.state 0)} (p : α → Prop)

theorem Path.eventually_cons :
    (∀ᶠ n in atTop, p ((π.cons s a hs).label n)) ↔ ∀ᶠ n in atTop, p (π.label n) := by
  rw [← map_add_atTop_eq_nat 1, eventually_map, map_add_atTop_eq_nat]
  rfl

theorem Path.frequently_cons :
    (∃ᶠ n in atTop, p ((π.cons s a hs).label n)) ↔ ∃ᶠ n in atTop, p (π.label n) :=
  not_congr (eventually_cons fun b => ¬ p b)

end Cons

end Machine

/-! ### What happens from some time on -/

/-- What stays once it holds, and holds at some time, holds from some time on. -/
theorem eventually_of_stable {p : ℕ → Prop} (hstep : ∀ n, p n → p (n + 1)) (h : ∃ n, p n) :
    ∀ᶠ n in atTop, p n := by
  obtain ⟨N, hN⟩ := h
  exact eventually_atTop.mpr ⟨N, fun n hn => Nat.le_induction hN (fun n _ => hstep n) n hn⟩

/-- What never grows from some time on stops falling. -/
theorem eventually_const {f : ℕ → ℕ} (h : ∀ᶠ n in atTop, f (n + 1) ≤ f n) :
    ∀ᶠ n in atTop, f (n + 1) = f n := by
  obtain ⟨N, hN⟩ := eventually_atTop.mp h
  have hanti : Antitone fun n => f (N + n) :=
    antitone_nat_of_succ_le fun n => hN (N + n) (Nat.le_add_right N n)
  obtain ⟨K, hK⟩ := WellFoundedLT.antitone_chain_condition hanti
  refine eventually_atTop.mpr ⟨N + K, fun n hn => ?_⟩
  obtain ⟨d, rfl⟩ := Nat.exists_eq_add_of_le hn
  have hnext := hK (K + d + 1) (by omega)
  have hnow := hK (K + d) (by omega)
  simp only [← Nat.add_assoc] at hnext hnow
  exact hnext.symm.trans hnow

/-! ### Moves -/

variable {P move : ℕ → Prop} {n : ℕ}

/-- What holds until the next move still holds when that move is made. -/
theorem exists_move (hkeep : ∀ k, n ≤ k → P k → ¬ move k → P (k + 1))
    (hmove : ∃ m, n ≤ m ∧ move m) (hP : P n) : ∃ m, n ≤ m ∧ P m ∧ move m := by
  classical
  have hfirst := Nat.find_spec hmove
  refine ⟨Nat.find hmove, hfirst.1, ?_, hfirst.2⟩
  have hupto : ∀ k, n ≤ k → k ≤ Nat.find hmove → P k := by
    intro k hk
    induction k, hk using Nat.le_induction with
    | base => exact fun _ => hP
    | succ k hk ih =>
        intro hlt
        exact hkeep k hk (ih (Nat.le_of_succ_le hlt)) fun hm => Nat.find_min hmove hlt ⟨hk, hm⟩
  exact hupto _ hfirst.1 (Nat.le_refl _)

/-- **No rank falls for ever.** If the party still moves whenever `P` holds, no step ends `P`
or raises the rank, and each move lowers it, then `P` does not hold. -/
theorem not_of_rank {f : ℕ → ℕ} (hfair : ∀ k, n ≤ k → P k → ∃ m, k ≤ m ∧ move m)
    (hstep : ∀ k, n ≤ k → P k → P (k + 1) ∧ f (k + 1) ≤ f k ∧ (move k → f (k + 1) < f k)) :
    ¬ P n := by
  intro hP
  generalize hf : f n = r
  induction r using Nat.strong_induction_on generalizing n with
  | _ r ih =>
      obtain ⟨m, hm, ⟨hPm, hle⟩, hmove⟩ := exists_move (P := fun k => P k ∧ f k ≤ f n)
        (fun k hk hPk _ => ⟨(hstep k hk hPk.1).1, (hstep k hk hPk.1).2.1.trans hPk.2⟩)
        (hfair n (Nat.le_refl n) hP) ⟨hP, Nat.le_refl _⟩
      obtain ⟨hnext, -, hlt⟩ := hstep m hm hPm
      refine ih _ (hf ▸ (hlt hmove).trans_le hle) (fun k hk => hfair k ?_)
        (fun k hk => hstep k ?_) hnext rfl <;> omega

end Lib
