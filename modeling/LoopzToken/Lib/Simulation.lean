import LoopzToken.Lib.Machine

/-!
# Lib.Simulation

Two machines, of which one is watched: `obs` reads off each step of a machine `M` a label of
a machine `N`, or nothing, and `abs` reads off each state of `M` a state of `N`. `Simulates`
says that every step of `M` is the step of `N` it shows, and leaves `N` where it is if it
shows nothing. `Realizes` says that every step of `N` can be brought about on `M`, by steps
that show it and nothing else. Together they make the traces of `N` exactly those that can be
watched on `M` (`traces_iff`).
-/

namespace Lib

namespace Machine

variable {σ α τ β : Type*} {M : Machine σ α} {N : Machine τ β}

/-! ### Replays -/

/-- A list of labels can be replayed if and only if a run takes them. -/
theorem foldlM_eq_some_iff {s t : σ} {as : List α} :
    as.foldlM M.step s = some t ↔ ∃ h, M.Run s h t ∧ (h.map Prod.snd).reverse = as := by
  constructor
  · intro he
    induction as generalizing s with
    | nil =>
        obtain rfl := Option.some.inj he
        exact ⟨[], .refl, rfl⟩
    | cons a as ih =>
        obtain ⟨u, hu, he⟩ := Option.bind_eq_some_iff.mp he
        obtain ⟨h, hr, rfl⟩ := ih he
        exact ⟨h ++ [(s, a)], .cons hu hr, by simp⟩
  · intro hrun
    obtain ⟨h, hr, rfl⟩ := hrun
    induction hr with
    | refl => rfl
    | step hr hs ih =>
        rw [List.map_cons, List.reverse_cons, List.foldlM_append, ih]
        simpa using hs

/-! ### One step -/

/-- A step, or none. -/
def stepOr (N : Machine τ β) (t : τ) : Option β → Option τ
  | none => some t
  | some b => N.step t b

/-- From the states of `I`, every step of `M` is the step of `N` that it shows. -/
def Simulates (M : Machine σ α) (N : Machine τ β) (obs : σ × α → Option β) (abs : σ → τ)
    (I : σ → Prop) : Prop :=
  ∀ s a s', I s → M.step s a = some s' →
    I s' ∧ N.stepOr (abs s) (obs (s, a)) = some (abs s')

/-- From the states of `J`, every step of `N` can be brought about on `M`. -/
def Realizes (M : Machine σ α) (N : Machine τ β) (obs : σ × α → Option β) (abs : σ → τ)
    (J : σ → Prop) : Prop :=
  ∀ s b t, J s → N.step (abs s) b = some t →
    ∃ h s', M.Run s h s' ∧ h.filterMap obs = [b] ∧ J s' ∧ abs s' = t

/-! ### Runs -/

section Runs

variable {obs : σ × α → Option β} {abs : σ → τ} {I J : σ → Prop} {s : σ}

theorem Simulates.run (hsim : Simulates M N obs abs I) (hs : I s) {s' : σ} {h : List (σ × α)}
    (hr : M.Run s h s') :
    I s' ∧ ∃ g, N.Run (abs s) g (abs s') ∧ g.map Prod.snd = h.filterMap obs := by
  induction hr with
  | refl => exact ⟨hs, [], .refl, rfl⟩
  | @step h u v a hr hstep ih =>
      obtain ⟨hu, g, hg, hmap⟩ := ih
      obtain ⟨hv, habs⟩ := hsim u a v hu hstep
      refine ⟨hv, ?_⟩
      rw [List.filterMap_cons]
      cases hobs : obs (u, a) with
      | none =>
          rw [hobs] at habs
          rw [← Option.some.inj habs]
          exact ⟨g, hg, hmap⟩
      | some b =>
          rw [hobs] at habs
          exact ⟨(abs u, b) :: g, .step hg habs, congrArg (b :: ·) hmap⟩

theorem Realizes.run (hreal : Realizes M N obs abs J) (hs : J s) {t : τ} {g : List (τ × β)}
    (hr : N.Run (abs s) g t) :
    ∃ h s', M.Run s h s' ∧ h.filterMap obs = g.map Prod.snd ∧ J s' ∧ abs s' = t := by
  induction hr with
  | refl => exact ⟨[], s, .refl, rfl, hs, rfl⟩
  | @step g u v b hr hstep ih =>
      obtain ⟨h, s', hh, hmap, hs', rfl⟩ := ih
      obtain ⟨h', s'', hh', hobs, hs'', habs⟩ := hreal s' b v hs' hstep
      refine ⟨h' ++ h, s'', hh.trans hh', ?_, hs'', habs⟩
      rw [List.filterMap_append, hobs, hmap]
      rfl

/-- **Two levels with the same traces.** -/
theorem traces_iff (hsim : Simulates M N obs abs I) (hreal : Realizes M N obs abs J)
    (hI : I s) (hJ : J s) {t : τ} {bs : List β} :
    (∃ h s', M.Run s h s' ∧ (h.filterMap obs).reverse = bs ∧ abs s' = t) ↔
      bs.foldlM N.step (abs s) = some t := by
  rw [foldlM_eq_some_iff]
  constructor
  · intro hrun
    obtain ⟨h, s', hh, rfl, rfl⟩ := hrun
    obtain ⟨-, g, hg, hmap⟩ := hsim.run hI hh
    exact ⟨g, hg, congrArg List.reverse hmap⟩
  · intro hrun
    obtain ⟨g, hg, rfl⟩ := hrun
    obtain ⟨h, s', hh, hmap, -, habs⟩ := hreal.run hJ hg
    exact ⟨h, s', hh, congrArg List.reverse hmap, habs⟩

end Runs

end Machine

end Lib
