import Mathlib.Data.List.InsertIdx
import LoopzToken.Lib.Leftmost

/-!
# LoopzToken.Gateway.Router

`Router.Select`: the candidate of the greatest static priority among those that
every filter accepts, the first one of equals.

A filter may keep something between its calls (a capacity, a rate limit), so it is a
function of what all filters keep, `σ`, and of a candidate. Which filter is asked
about which candidate is observed by filters that write down their calls
(`Router.logged`), not by a second definition of the loops.
-/

namespace LoopzToken.Gateway

open Lib

/-! ### The router -/

structure Candidate where
  providerID : String
  deploymentID : String
  priority : ℤ
  weight : ℤ
  deriving DecidableEq, Repr

/-- A `Filter`: its verdict on a candidate, and what the filters keep afterwards. -/
abbrev Filter (σ : Type*) := σ → Candidate → Bool × σ

/-- `ErrNoCandidate`. -/
inductive RouterError
  | noCandidate
  deriving DecidableEq, Repr

/-- The text of an error. -/
def RouterError.message : RouterError → String
  | .noCandidate => "no available provider candidate"

structure Router (σ : Type*) where
  filters : List (Filter σ)

section

variable {σ : Type*}

/-- The inner loop of `Select`, which breaks at the first filter that refuses. -/
def allowed (c : Candidate) : List (Filter σ) → σ → Bool × σ
  | [], s => (true, s)
  | f :: fs, s =>
    match f s c with
    | (true, s') => allowed c fs s'
    | (false, s') => (false, s')

/-- `best` after an allowed candidate: it is replaced by a greater priority only. -/
def better : Option Candidate → Candidate → Option Candidate
  | none, c => some c
  | some best, c => if c.priority > best.priority then some c else some best

/-- The outer loop of `Select`. -/
def Router.selectLoop (r : Router σ) :
    List Candidate → Option Candidate → σ → Option Candidate × σ
  | [], best, s => (best, s)
  | c :: cs, best, s =>
    match allowed c r.filters s with
    | (false, s') => r.selectLoop cs best s'
    | (true, s') => r.selectLoop cs (better best c) s'

/-- `Select`. -/
def Router.select (r : Router σ) (candidates : List Candidate) (s : σ) :
    Except RouterError Candidate × σ :=
  match r.selectLoop candidates none s with
  | (none, s') => (.error .noCandidate, s')
  | (some best, s') => (.ok best, s')

/-! ### Calls of filters -/

/-- The filter at a position was called on a candidate. -/
structure FilterCall where
  filter : ℕ
  candidate : Candidate
  verdict : Bool
  deriving DecidableEq, Repr

/-- The filter at position `j`, writing down its calls. -/
def logged (j : ℕ) (f : Filter σ) : Filter (σ × List FilterCall) := fun s c =>
  ((f s.1 c).1, ((f s.1 c).2, s.2 ++ [⟨j, c, (f s.1 c).1⟩]))

/-- The router with filters that write down their calls. -/
def Router.logged (r : Router σ) : Router (σ × List FilterCall) :=
  ⟨r.filters.mapIdx Gateway.logged⟩

/-- The calls about one candidate, with `n` filters: every filter is called at most
once, in their order, and it is called just when all before it have accepted. -/
structure Evaluated (n : ℕ) (c : Candidate) (calls : List FilterCall) : Prop where
  about : ∀ call ∈ calls, call.candidate = c
  order : calls.map (·.filter) = List.range calls.length
  bound : calls.length ≤ n
  reached : ∀ j < n, j ∈ calls.map (·.filter) ↔ ∀ i < j, ⟨i, c, true⟩ ∈ calls

/-- Every one of the `n` filters was called and accepted. -/
def accepted (n : ℕ) (c : Candidate) (calls : List FilterCall) : Bool :=
  decide (∀ j < n, ⟨j, c, true⟩ ∈ calls)

/-- The candidates in the input's order, each with whether all filters accepted it. -/
def verdicts (n : ℕ) (candidates : List Candidate) (blocks : List (List FilterCall)) :
    List (Candidate × Bool) :=
  List.zipWith (fun c calls => (c, accepted n c calls)) candidates blocks

/-- The verdict of a filter without state: it depends on the candidate only. -/
def Stateless (f : Filter σ) : Prop := ∀ s s' c, (f s c).1 = (f s' c).1

/-! ### The inner loop -/

/-- The calls about a candidate that `m` filters from position `k` on accept, with the
refusal that ends them, if there is one. -/
def block (c : Candidate) (k m : ℕ) (verdict : Bool) : List FilterCall :=
  (List.range' k m).map (fun j => ⟨j, c, true⟩) ++ if verdict then [] else [⟨k + m, c, false⟩]

theorem block_succ (c : Candidate) (k m : ℕ) (verdict : Bool) :
    block c k (m + 1) verdict = ⟨k, c, true⟩ :: block c (k + 1) m verdict := by
  simp [block, List.range'_succ, Nat.add_right_comm k 1 m, Nat.add_assoc]

/-- Writing down the calls changes neither the verdict nor what the filters keep. -/
theorem allowed_logged (c : Candidate) (fs : List (Filter σ)) (k : ℕ) (s : σ)
    (log : List FilterCall) :
    ∃ m, allowed c (fs.mapIdx fun i => logged (k + i)) (s, log) =
        ((allowed c fs s).1, ((allowed c fs s).2, log ++ block c k m (allowed c fs s).1)) ∧
      if (allowed c fs s).1 then m = fs.length else m < fs.length := by
  induction fs generalizing k s log with
  | nil => exact ⟨0, by simp [allowed, block]⟩
  | cons f fs ih =>
      have hshift : (fun i => logged (σ := σ) (k + (i + 1))) = fun i => logged (k + 1 + i) := by
        funext i
        rw [Nat.add_right_comm, Nat.add_assoc]
      rw [List.mapIdx_cons, hshift]
      rcases hf : f s c with ⟨verdict, s'⟩
      cases verdict with
      | false => exact ⟨0, by simp [allowed, logged, hf, block]⟩
      | true =>
          obtain ⟨m, heq, hm⟩ := ih (k + 1) s' (log ++ [⟨k, c, true⟩])
          refine ⟨m + 1, ?_, ?_⟩
          · simp [allowed, logged, hf, heq, block_succ]
          · simpa [allowed, hf] using hm

theorem accept_mem_block {c : Candidate} {m i : ℕ} {verdict : Bool} :
    ⟨i, c, true⟩ ∈ block c 0 m verdict ↔ i < m := by
  cases verdict <;> simp [block]

theorem length_block (c : Candidate) (m : ℕ) (verdict : Bool) :
    (block c 0 m verdict).length = if verdict then m else m + 1 := by
  cases verdict <;> simp [block]

theorem map_filter_block (c : Candidate) (m : ℕ) (verdict : Bool) :
    (block c 0 m verdict).map (·.filter) = List.range (block c 0 m verdict).length := by
  rw [length_block, List.range_eq_range']
  cases verdict <;> simp [block, Function.comp_def, List.range'_concat]

/-- The calls that the inner loop makes are in order, and complete when it allows the
candidate. -/
theorem evaluated_block {c : Candidate} {n m : ℕ} {verdict : Bool}
    (hm : if verdict then m = n else m < n) :
    Evaluated n c (block c 0 m verdict) ∧ accepted n c (block c 0 m verdict) = verdict := by
  refine ⟨⟨fun call hcall => ?_, map_filter_block .., ?_, fun j hj => ?_⟩, ?_⟩
  · rcases List.mem_append.mp hcall with h | h
    · obtain ⟨j, -, rfl⟩ := List.mem_map.mp h
      rfl
    · cases verdict with
      | true => cases h
      | false => rw [List.mem_singleton.mp h]
  · rw [length_block]
    cases verdict with
    | true => exact Nat.le_of_eq hm
    | false => exact Nat.succ_le_of_lt hm
  · -- the refusal, if there is one, is the call number `m`
    rw [map_filter_block, List.mem_range, length_block]
    simp only [accept_mem_block]
    cases verdict with
    | true =>
        obtain rfl : m = n := hm
        exact ⟨fun _ i hi => hi.trans hj, fun _ => hj⟩
    | false =>
        refine ⟨fun hlt i hi => ?_, fun hall => ?_⟩
        · exact hi.trans_le (Nat.lt_succ_iff.mp hlt)
        · by_contra hge
          exact absurd (hall m (by simp at hge; omega)) (lt_irrefl m)
  · simp only [accepted, accept_mem_block]
    cases verdict with
    | true => simpa using fun j hj => hj.trans_eq (Eq.symm hm)
    | false => simpa using ⟨m, hm, Nat.le_refl m⟩

/-- Without state, the inner loop asks whether all filters accept. -/
theorem allowed_stateless {fs : List (Filter σ)} (hfs : ∀ f ∈ fs, Stateless f)
    (c : Candidate) (s s₀ : σ) : (allowed c fs s).1 = fs.all fun f => (f s₀ c).1 := by
  induction fs generalizing s with
  | nil => rfl
  | cons f fs ih =>
      obtain ⟨hf, hfs⟩ := List.forall_mem_cons.mp hfs
      rw [List.all_cons, ← hf s s₀ c]
      rcases h : f s c with ⟨verdict, s'⟩
      cases verdict with
      | false => simp [allowed, h]
      | true => simpa [allowed, h] using ih hfs s'

/-! ### The outer loop -/

theorem better_eq (best : Option Candidate) (c : Candidate) :
    better best c = List.argAux (fun b a : Candidate => a.priority < b.priority) best c := by
  cases best <;> rfl

/-- The loop keeps the best of the candidates that the filters accept. -/
theorem selectLoop_logged (r : Router σ) (candidates : List Candidate) (best : Option Candidate)
    (s : σ) (log : List FilterCall) :
    ∃ blocks, List.Forall₂ (Evaluated r.filters.length) candidates blocks ∧
      r.logged.selectLoop candidates best (s, log) =
        ((r.selectLoop candidates best s).1,
          ((r.selectLoop candidates best s).2, log ++ blocks.flatten)) ∧
      (r.selectLoop candidates best s).1 =
        (survivors (verdicts r.filters.length candidates blocks)).foldl
          (List.argAux fun b a : Candidate => a.priority < b.priority) best ∧
      ((∀ f ∈ r.filters, Stateless f) → ∀ s₀, verdicts r.filters.length candidates blocks =
        candidates.map fun c => (c, r.filters.all fun f => (f s₀ c).1)) := by
  induction candidates generalizing best s log with
  | nil => exact ⟨[], .nil, by simp [Router.selectLoop], rfl, fun _ _ => rfl⟩
  | cons c cs ih =>
      obtain ⟨m, heq, hm⟩ := allowed_logged c r.filters 0 s log
      simp only [Nat.zero_add] at heq
      obtain ⟨hev, hacc⟩ := evaluated_block (c := c) hm
      rcases hal : allowed c r.filters s with ⟨verdict, s'⟩
      rw [hal] at heq hev hacc
      obtain ⟨blocks, hblocks, hlog, hbest, hverdicts⟩ :=
        ih (if verdict then better best c else best) s' (log ++ block c 0 m verdict)
      refine ⟨block c 0 m verdict :: blocks, .cons hev hblocks, ?_, ?_, fun hfs s₀ => ?_⟩
      · cases verdict <;> simpa [Router.selectLoop, Router.logged, heq, hal] using hlog
      · cases verdict <;>
          simpa [Router.selectLoop, hal, verdicts, hacc, better_eq] using hbest
      · have hall := allowed_stateless hfs c s s₀
        rw [hal] at hall
        rw [verdicts, List.zipWith_cons_cons, List.map_cons, ← hall, ← hverdicts hfs s₀, hacc]
        rfl

theorem select_fst (r : Router σ) (candidates : List Candidate) (s : σ) :
    (r.select candidates s).1 =
      ((r.selectLoop candidates none s).1).elim (.error .noCandidate) .ok := by
  unfold Router.select
  rcases r.selectLoop candidates none s with ⟨_ | best, s'⟩ <;> rfl

/-- Without state, `Select` searches what all filters accept, whatever they keep. -/
theorem select_stateless {r : Router σ} (hfs : ∀ f ∈ r.filters, Stateless f)
    (candidates : List Candidate) (s s₀ : σ) :
    (r.select candidates s).1 = (selected Candidate.priority (candidates.map fun c =>
      (c, r.filters.all fun f => (f s₀ c).1))).elim (.error .noCandidate) .ok := by
  obtain ⟨blocks, -, -, hbest, hverdicts⟩ := selectLoop_logged r candidates none s []
  rw [select_fst, hbest, hverdicts hfs s₀]
  rfl

/-- **`Select` is the leftmost survivor of the greatest priority**, for every list of
candidates and of filters, whatever the filters keep.

The calls of the filters fall into one block for each candidate, in the candidates'
order. The result is read off these calls. Filters without state may be reordered, and
any position but the selected one removed. -/
theorem select_leftmost (r : Router σ) (candidates : List Candidate) (s : σ) :
    ∃ blocks, List.Forall₂ (Evaluated r.filters.length) candidates blocks ∧
      r.logged.select candidates (s, []) =
        ((r.select candidates s).1, ((r.select candidates s).2, blocks.flatten)) ∧
      ((r.select candidates s).1 = .error .noCandidate ↔
        ∀ c, (c, true) ∉ verdicts r.filters.length candidates blocks) ∧
      (∀ c, (r.select candidates s).1 = .ok c ↔
        ∃ i, Leftmost Candidate.priority (verdicts r.filters.length candidates blocks) i c) ∧
      ((∀ f ∈ r.filters, Stateless f) →
        (∀ fs, r.filters.Perm fs → ∀ s',
          (Router.select ⟨fs⟩ candidates s').1 = (r.select candidates s).1) ∧
        ∀ k, (∀ c, ¬ Leftmost Candidate.priority
            (verdicts r.filters.length candidates blocks) k c) →
          ∀ s', (r.select (candidates.eraseIdx k) s').1 = (r.select candidates s).1) := by
  obtain ⟨blocks, hblocks, hlog, hbest, hverdicts⟩ := selectLoop_logged r candidates none s []
  rw [foldl_survivors] at hbest
  refine ⟨blocks, hblocks, ?_, ?_, fun c => ?_, fun hfs => ⟨fun fs hperm s' => ?_,
    fun k hk s' => ?_⟩⟩
  · unfold Router.select
    rw [hlog]
    rcases r.selectLoop candidates none s with ⟨_ | best, s'⟩ <;> rfl
  · rw [← selected_eq_none_iff (f := Candidate.priority), ← hbest, select_fst]
    cases (r.selectLoop candidates none s).1 <;> simp
  · rw [← selected_eq_some_iff, ← hbest, select_fst]
    cases (r.selectLoop candidates none s).1 <;> simp
  · have hfs' : ∀ f ∈ fs, Stateless f := fun f hf => hfs f (hperm.mem_iff.mpr hf)
    rw [select_stateless hfs candidates s s,
      select_stateless (r := ⟨fs⟩) hfs' candidates s' s]
    simp only [hperm.all_eq]
  · rw [select_stateless hfs candidates s s,
      select_stateless hfs (candidates.eraseIdx k) s' s, ← List.eraseIdx_map,
      selected_eraseIdx]
    rw [← hverdicts hfs s]
    exact hk

end

/-- Two deployments of the best priority behind one that is refused. -/
def deployments : List Candidate :=
  [⟨"p1", "d1", 9, 1⟩, ⟨"p2", "d2", -1, 1⟩, ⟨"p3", "d3", 4, 1⟩, ⟨"p4", "d4", 4, 7⟩]

/-- A circuit breaker and a floor for the priority. -/
def healthy : List (Filter Unit) :=
  [fun s c => (c.providerID ≠ "p1", s), fun s c => (c.priority ≥ 0, s)]

theorem deployments_selected :
    (Router.select ⟨healthy⟩ deployments ()).1 = .ok ⟨"p3", "d3", 4, 1⟩ ∧
      (Router.select ⟨healthy.reverse⟩ deployments ()).1 =
        (Router.select ⟨healthy⟩ deployments ()).1 := by
  obtain ⟨blocks, -, -, -, -, hstateless⟩ := select_leftmost ⟨healthy⟩ deployments ()
  have hfs : ∀ f ∈ healthy, Stateless f := by
    intro f hf
    rcases List.mem_pair.mp hf with rfl | rfl <;> exact fun _ _ _ => rfl
  exact ⟨by decide, (hstateless hfs).1 _ healthy.reverse_perm.symm ()⟩

end LoopzToken.Gateway
