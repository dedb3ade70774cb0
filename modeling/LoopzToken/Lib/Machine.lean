import Mathlib.Data.List.Basic

/-!
# Lib.Machine

Labelled machines with a **partial step function**, and what is proved of all
their runs.

A label carries every choice the environment makes (which party moves, what an
outside call answers, what a clock reads), so `step` stays a function and a run
can be replayed by evaluation (`exec`) while the theorems still quantify over
every interleaving. A `Run` keeps its whole history, newest step first: the
pairs of a state and the label taken from it. Counting events, naming the steps
of a run and splitting it in two are then plain list operations.

The induction rules are stated once, here: `Run.invariant` for one state
property, and `Run.always_iff` for a property of the history that holds exactly as
long as every step meets a side condition.
-/

namespace Lib

/-- A machine: an initial state and a partial, labelled step function. -/
structure Machine (σ α : Type*) where
  init : σ
  step : σ → α → Option σ

namespace Machine

variable {σ α : Type*} {M : Machine σ α}

/-- `M.Run s h t`: the steps of `h` (newest first, each with the state it was
taken from) lead from `s` to `t`. -/
inductive Run (M : Machine σ α) (s : σ) : List (σ × α) → σ → Prop
  | refl : Run M s [] s
  | step {h : List (σ × α)} {t u : σ} {a : α} :
      Run M s h t → M.step t a = some u → Run M s ((t, a) :: h) u

/-! ### Splitting runs -/

theorem Run.split {s u : σ} {h₁ h₂ : List (σ × α)} (hr : M.Run s (h₂ ++ h₁) u) :
    ∃ t, M.Run s h₁ t ∧ M.Run t h₂ u := by
  induction h₂ generalizing u with
  | nil => exact ⟨u, hr, .refl⟩
  | cons p h₂ ih =>
      cases hr with
      | step hr hs =>
          obtain ⟨t, hst, htu⟩ := ih hr
          exact ⟨t, hst, .step htu hs⟩

/-- One run after another. -/
theorem Run.trans {s t u : σ} {h₁ h₂ : List (σ × α)} (h₁t : M.Run s h₁ t) (h₂u : M.Run t h₂ u) :
    M.Run s (h₂ ++ h₁) u := by
  induction h₂u with
  | refl => exact h₁t
  | step _ hs ih => exact .step ih hs

/-- A step in front of a run. -/
theorem Run.cons {s t u : σ} {a : α} {h : List (σ × α)} (hs : M.step s a = some t)
    (hr : M.Run t h u) : M.Run s (h ++ [(s, a)]) u :=
  (Run.step .refl hs).trans hr

/-! ### Replaying a list of labels -/

/-- Replay `as` from `s`, on top of the history `h`. -/
def execFrom (M : Machine σ α) : List (σ × α) → σ → List α → Option (List (σ × α) × σ)
  | h, s, [] => some (h, s)
  | h, s, a :: as => (M.step s a).bind fun t => M.execFrom ((s, a) :: h) t as

/-- Replay `as` from the initial state. -/
def exec (M : Machine σ α) (as : List α) : Option (List (σ × α) × σ) :=
  M.execFrom [] M.init as

theorem execFrom_run {s t u : σ} {h h' : List (σ × α)} {as : List α} (hr : M.Run s h t)
    (he : M.execFrom h t as = some (h', u)) : M.Run s h' u := by
  induction as generalizing h t with
  | nil =>
      simp only [execFrom, Option.some.injEq, Prod.mk.injEq] at he
      obtain ⟨rfl, rfl⟩ := he
      exact hr
  | cons a as ih =>
      simp only [execFrom, Option.bind_eq_some_iff] at he
      obtain ⟨v, hv, he⟩ := he
      exact ih (.step hr hv) he

/-- A replayed list of labels is a run. -/
theorem exec_run {as : List α} {h : List (σ × α)} {s : σ} (he : M.exec as = some (h, s)) :
    M.Run M.init h s :=
  execFrom_run .refl he

/-- Evaluate a test on the outcome of a replay, and get the run it was made on. -/
theorem exists_run_of_exec (M : Machine σ α) (as : List α) (p : List (σ × α) → σ → Bool)
    (he : (M.exec as).map (fun r => p r.1 r.2) = some true) :
    ∃ h s, M.Run M.init h s ∧ p h s = true := by
  obtain ⟨⟨h, s⟩, hx, hp⟩ := Option.map_eq_some_iff.mp he
  exact ⟨h, s, exec_run hx, hp⟩

/-! ### Independent labels -/

section Independent

variable {I : σ → Prop} {P Q : α → Prop}

/-- Two labels that can both be taken can be taken in either order, with one outcome. -/
def Diamond (M : Machine σ α) (I : σ → Prop) (P Q : α → Prop) : Prop :=
  ∀ s a b t u, I s → P a → Q b → M.step s a = some t → M.step s b = some u →
    ∃ v, M.step t b = some v ∧ M.step u a = some v

/-- One label against a list. -/
theorem Diamond.strip (hd : M.Diamond I P Q) (hI : ∀ s a t, I s → M.step s a = some t → I t)
    {s t u : σ} {a : α} {bs : List α} (hs : I s) (ha : P a) (hbs : ∀ b ∈ bs, Q b)
    (ht : M.step s a = some t) (hu : bs.foldlM M.step s = some u) :
    ∃ v, bs.foldlM M.step t = some v ∧ M.step u a = some v := by
  induction bs generalizing s t with
  | nil =>
      obtain rfl := Option.some.inj hu
      exact ⟨t, rfl, ht⟩
  | cons b bs ih =>
      obtain ⟨hb, hbs⟩ := List.forall_mem_cons.mp hbs
      obtain ⟨w, hw, hu⟩ := Option.bind_eq_some_iff.mp hu
      obtain ⟨x, htx, hwx⟩ := hd s a b t w hs ha hb ht hw
      obtain ⟨v, hv, huv⟩ := ih (hI _ _ _ hs hw) hbs hwx hu
      refine ⟨v, ?_, huv⟩
      rw [List.foldlM_cons, htx]
      exact hv

/-- **Confluence of two lists of labels.** -/
theorem Diamond.lists (hd : M.Diamond I P Q) (hI : ∀ s a t, I s → M.step s a = some t → I t)
    {s t u : σ} {as bs : List α} (hs : I s) (has : ∀ a ∈ as, P a) (hbs : ∀ b ∈ bs, Q b)
    (ht : as.foldlM M.step s = some t) (hu : bs.foldlM M.step s = some u) :
    ∃ v, bs.foldlM M.step t = some v ∧ as.foldlM M.step u = some v := by
  induction as generalizing s u with
  | nil =>
      obtain rfl := Option.some.inj ht
      exact ⟨u, hu, rfl⟩
  | cons a as ih =>
      obtain ⟨ha, has⟩ := List.forall_mem_cons.mp has
      obtain ⟨w, hw, ht⟩ := Option.bind_eq_some_iff.mp ht
      obtain ⟨x, hwx, hux⟩ := hd.strip hI hs ha hbs hw hu
      obtain ⟨v, hv, hxv⟩ := ih (hI _ _ _ hs hw) has ht hwx
      refine ⟨v, hv, ?_⟩
      rw [List.foldlM_cons, hux]
      exact hxv

end Independent

/-! ### Induction rules -/

/-- What every step preserves holds at the end of every run. -/
theorem Run.invariant {I : σ → Prop} {s u : σ} {h : List (σ × α)}
    (hstep : ∀ t a v, I t → M.step t a = some v → I v) (hs : I s) (hr : M.Run s h u) : I u := by
  induction hr with
  | refl => exact hs
  | step _ hstp ih => exact hstep _ _ _ ih hstp

/-- **Variants.** What every step spends, a run spends of what it started with. -/
theorem Run.countP_add_le {f : σ → ℕ} {c : σ × α → Bool} {s u : σ} {h : List (σ × α)}
    (hstep : ∀ h' t a v, M.Run s h' t → M.step t a = some v → f v + (c (t, a)).toNat ≤ f t)
    (hr : M.Run s h u) : h.countP c + f u ≤ f s := by
  induction hr with
  | refl => exact Nat.le_of_eq (Nat.zero_add _)
  | step hr hs ih =>
      have hspend := hstep _ _ _ _ hr hs
      rw [List.countP_cons]
      cases hc : c (_, _) <;> simp only [hc, Bool.toNat_true, Bool.toNat_false] at hspend ⊢ <;>
        simp <;> omega

/-! ### Properties of the whole history -/

/-- `P` holds of the run so far in every state the run visits. -/
def Always (P : List (σ × α) → σ → Prop) : List (σ × α) → σ → Prop
  | [], s => P [] s
  | (t, a) :: h, s => P ((t, a) :: h) s ∧ Always P h t

theorem Always.head {P : List (σ × α) → σ → Prop} {h : List (σ × α)} {s : σ}
    (ha : Always P h s) : P h s := by
  cases h with
  | nil => exact ha
  | cons p h => exact ha.1

/-- What holds of every run holds all along it. -/
theorem Run.always {P : List (σ × α) → σ → Prop} {s u : σ} {h : List (σ × α)}
    (hr : M.Run s h u) (hP : ∀ h' t, h' <:+ h → M.Run s h' t → P h' t) : Always P h u := by
  induction hr with
  | refl => exact hP _ _ (List.suffix_refl _) .refl
  | step hr hstp ih =>
      exact ⟨hP _ _ (List.suffix_refl _) (.step hr hstp),
        ih fun h' t hsuf => hP h' t (hsuf.trans (List.suffix_cons _ _))⟩

/-- What follows for a step from `P` before and after it holds of every step of a
run on which `P` always held. -/
theorem Run.always_steps {P : List (σ × α) → σ → Prop} {C : σ → α → Prop} {s u : σ}
    {h : List (σ × α)} (hr : M.Run s h u)
    (hstep : ∀ h' t a v, M.Run s h' t → M.step t a = some v → P h' t → P ((t, a) :: h') v →
      C t a) (hA : Always P h u) : ∀ p ∈ h, C p.1 p.2 := by
  induction hr with
  | refl => exact fun p hp => absurd hp List.not_mem_nil
  | step hr hstp ih =>
      exact List.forall_mem_cons.mpr ⟨hstep _ _ _ _ hr hstp hA.2.head hA.1, ih hA.2⟩

/-- **Exact side conditions.** If, after a run on which `P` always held, one
more step keeps `P` exactly when it meets `C`, then `P` holds all along a run
exactly when all its steps meet `C`. What is known of the whole history may be
used at each step: the history so far is a suffix of it. -/
theorem Run.always_iff {P : List (σ × α) → σ → Prop} {C : σ → α → Prop} {s u : σ}
    {h : List (σ × α)} (hr : M.Run s h u) (h0 : P [] s)
    (hstep : ∀ h' t a v, (t, a) :: h' <:+ h → M.Run s h' t → Always P h' t →
      M.step t a = some v → (P ((t, a) :: h') v ↔ C t a)) :
    Always P h u ↔ ∀ p ∈ h, C p.1 p.2 := by
  induction hr with
  | refl => simpa [Always] using h0
  | step hr hstp ih =>
      rw [Always, List.forall_mem_cons,
        ← ih fun h' t a v hsuf => hstep h' t a v (hsuf.trans (List.suffix_cons _ _))]
      constructor
      · intro h
        obtain ⟨hP, hA⟩ := h
        exact ⟨(hstep _ _ _ _ (List.suffix_refl _) hr hA hstp).mp hP, hA⟩
      · intro h
        obtain ⟨hC, hA⟩ := h
        exact ⟨(hstep _ _ _ _ (List.suffix_refl _) hr hA hstp).mpr hC, hA⟩

end Machine

end Lib
