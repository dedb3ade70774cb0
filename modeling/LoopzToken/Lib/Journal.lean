import Mathlib.Data.List.Nodup
import Mathlib.Tactic.Common

/-!
# Lib.Journal

A journal that many writers append to, in any order. An entry is a record with the index of
its writer; the index itself is not written down, only a key of the record is.

Reading the journal by key gives back what one writer wrote if no two writers have the same
key (`withKey_eq`), and only then (`nodup_of_withKey`).
-/

namespace Lib.Journal

variable {ρ κ : Type*}

/-- The records of the writer `i`, in order. -/
def ofWriter (journal : List (ℕ × ρ)) (i : ℕ) : List ρ :=
  journal.filterMap fun entry => if entry.1 = i then some entry.2 else none

theorem ofWriter_cons (n : ℕ) (r : ρ) (journal : List (ℕ × ρ)) (i : ℕ) :
    ofWriter ((n, r) :: journal) i =
      if n = i then r :: ofWriter journal i else ofWriter journal i := by
  unfold ofWriter
  by_cases hi : n = i <;> simp [hi]

theorem ofWriter_append (j₁ j₂ : List (ℕ × ρ)) (i : ℕ) :
    ofWriter (j₁ ++ j₂) i = ofWriter j₁ i ++ ofWriter j₂ i := List.filterMap_append

theorem ofWriter_self (i : ℕ) (rs : List ρ) : ofWriter (rs.map (i, ·)) i = rs := by
  induction rs with
  | nil => rfl
  | cons r rs ih => rw [List.map_cons, ofWriter_cons, if_pos rfl, ih]

theorem ofWriter_other {i j : ℕ} (hij : i ≠ j) (rs : List ρ) :
    ofWriter (rs.map (i, ·)) j = [] := by
  induction rs with
  | nil => rfl
  | cons r rs ih => rw [List.map_cons, ofWriter_cons, if_neg hij, ih]

variable [DecidableEq κ] {key : ρ → κ} {keys : List κ} {journal : List (ℕ × ρ)}

/-- Writer `i` writes the key `keys[i]` into all its records. -/
def Keyed (key : ρ → κ) (keys : List κ) (journal : List (ℕ × ρ)) : Prop :=
  ∀ entry ∈ journal, keys[entry.1]? = some (key entry.2)

/-- Read the journal by key. -/
def withKey (key : ρ → κ) (journal : List (ℕ × ρ)) (k : κ) : List ρ :=
  (journal.map (·.2)).filter fun r => key r = k

theorem withKey_cons (n : ℕ) (r : ρ) (journal : List (ℕ × ρ)) (k : κ) :
    withKey key ((n, r) :: journal) k =
      if key r = k then r :: withKey key journal k else withKey key journal k := by
  unfold withKey
  by_cases hk : key r = k <;> simp [hk]

/-- Distinct keys tell the writers apart. -/
theorem withKey_eq (hkeyed : Keyed key keys journal) (hnodup : keys.Nodup) {i : ℕ} {k : κ}
    (hi : keys[i]? = some k) : withKey key journal k = ofWriter journal i := by
  induction journal with
  | nil => rfl
  | cons entry journal ih =>
      obtain ⟨hentry, hkeyed⟩ := List.forall_mem_cons.mp hkeyed
      have hiff : key entry.2 = k ↔ entry.1 = i := by
        constructor
        · intro hk
          obtain ⟨hlt, -⟩ := List.getElem?_eq_some_iff.mp hi
          exact ((List.getElem?_inj hlt hnodup).mp (by rw [hi, hentry, hk])).symm
        · intro heq
          rw [heq, hi] at hentry
          exact (Option.some.inj hentry).symm
      rw [withKey_cons, ofWriter_cons, ih hkeyed]
      simp only [hiff]

/-- Reading by a key that two writers share gives the records of both. -/
theorem length_withKey (hkeyed : Keyed key keys journal) {i j : ℕ} (hij : i ≠ j) {k : κ}
    (hi : keys[i]? = some k) (hj : keys[j]? = some k) :
    (ofWriter journal i).length + (ofWriter journal j).length ≤
      (withKey key journal k).length := by
  induction journal with
  | nil => exact Nat.le_refl _
  | cons entry journal ih =>
      obtain ⟨hentry, hkeyed⟩ := List.forall_mem_cons.mp hkeyed
      have ih := ih hkeyed
      have hkey : ∀ n, keys[n]? = some k → entry.1 = n → key entry.2 = k := by
        intro n hn heq
        rw [heq, hn] at hentry
        exact (Option.some.inj hentry).symm
      rw [ofWriter_cons, ofWriter_cons, withKey_cons]
      by_cases hei : entry.1 = i
      · have hej : entry.1 ≠ j := fun heq => hij (hei.symm.trans heq)
        rw [if_pos hei, if_neg hej, if_pos (hkey i hi hei), List.length_cons, List.length_cons]
        omega
      · by_cases hej : entry.1 = j
        · rw [if_neg hei, if_pos hej, if_pos (hkey j hj hej), List.length_cons, List.length_cons]
          omega
        · rw [if_neg hei, if_neg hej]
          split_ifs
          · exact Nat.le_succ_of_le ih
          · exact ih

/-- **Only distinct keys do**, once every writer wrote something. -/
theorem nodup_of_withKey (hkeyed : Keyed key keys journal)
    (hwrote : ∀ i < keys.length, ofWriter journal i ≠ [])
    (h : ∀ i k, keys[i]? = some k → withKey key journal k = ofWriter journal i) :
    keys.Nodup := by
  rw [List.nodup_iff_getElem?_ne_getElem?]
  intro i j hij hj heq
  have hi : keys[i]? = some keys[j] := heq.trans (List.getElem?_eq_getElem hj)
  have hlen := length_withKey hkeyed (Nat.ne_of_lt hij) hi (List.getElem?_eq_getElem hj)
  rw [h i _ hi] at hlen
  exact hwrote j hj (List.length_eq_zero_iff.mp (by omega))

end Lib.Journal
