import Mathlib.Tactic.Common
import LoopzToken.Lib.Bytes

/-!
# Lib.Reader

Readers of Go, and reading one up to a limit: `io.ReadAll` of an `io.LimitReader`.

A limit hides what is behind it. The bytes are cut off there (`readAll_fst`), and an
error that would come later is not seen (`readAll_snd_of_gt`); at the limit itself it is
seen only if it comes along with the last bytes (`readAll_snd_of_eq`).
-/

namespace Lib

/-- What the successive calls of `Read` deliver. -/
inductive Reader
  | eof
  | fail (err : String)
  /-- Bytes, and no error. -/
  | more (chunk : Bytes) (rest : Reader)
  /-- The last bytes, along with the error; without one it is the end of the data. -/
  | last (chunk : Bytes) (err : Option String)

namespace Reader

/-- All the bytes. -/
def data : Reader → Bytes
  | eof | fail _ => []
  | more chunk rest => chunk ++ rest.data
  | last chunk _ => chunk

/-- The error that ends the data early. -/
def failure : Reader → Option String
  | eof => none
  | fail err => some err
  | more _ rest => rest.failure
  | last _ err => err

/-- The end comes along with the last bytes. -/
def endsAbruptly : Reader → Bool
  | eof | fail _ => false
  | more _ rest => rest.endsAbruptly
  | last chunk _ => chunk ≠ []

/-- `io.ReadAll(io.LimitReader(r, n))`: the bytes, and the error that was seen. A call
never asks for more than what is left of the limit. -/
def readAll (n : ℕ) : Reader → Bytes × Option String
  | eof => ([], none)
  | fail err => ([], if n = 0 then none else some err)
  | more chunk rest =>
      if chunk.length < n then
        (chunk ++ (rest.readAll (n - chunk.length)).1, (rest.readAll (n - chunk.length)).2)
      else (chunk.take n, none)
  | last chunk err =>
      if n = 0 then ([], none)
      else if chunk.length ≤ n then (chunk, err)
      else (chunk.take n, none)

/-- The bytes up to the limit. -/
theorem readAll_fst (n : ℕ) (r : Reader) : (r.readAll n).1 = r.data.take n := by
  induction r generalizing n with
  | eof | fail err => simp [readAll, data]
  | more chunk rest ih =>
      rw [readAll, data]
      split
      · rename_i h
        rw [ih, List.take_append, List.take_of_length_le (Nat.le_of_lt h)]
      · rename_i h
        rw [List.take_append_of_le_length (Nat.not_lt.mp h)]
  | last chunk err =>
      rw [readAll, data]
      split
      · rename_i h
        simp [h]
      · split
        · rename_i h
          rw [List.take_of_length_le h]
        · rfl

/-- Below the limit, the error is seen. -/
theorem readAll_snd_of_lt {n : ℕ} {r : Reader} (h : r.data.length < n) :
    (r.readAll n).2 = r.failure := by
  induction r generalizing n with
  | eof => rfl
  | fail err => exact if_neg (Nat.ne_of_gt h)
  | more chunk rest ih =>
      rw [data, List.length_append] at h
      rw [readAll, if_pos (by omega)]
      exact ih (by omega)
  | last chunk err =>
      rw [data] at h
      rw [readAll, if_neg (by omega), if_pos (by omega)]
      rfl

/-- Behind the limit, it is not. -/
theorem readAll_snd_of_gt {n : ℕ} {r : Reader} (h : n < r.data.length) :
    (r.readAll n).2 = none := by
  induction r generalizing n with
  | eof | fail err => exact absurd h (Nat.not_lt_zero _)
  | more chunk rest ih =>
      rw [data, List.length_append] at h
      rw [readAll]
      split
      · exact ih (by omega)
      · rfl
  | last chunk err =>
      rw [data] at h
      rw [readAll]
      split
      · rfl
      · rw [if_neg (by omega)]

theorem data_ne_nil {r : Reader} (h : r.endsAbruptly = true) : r.data ≠ [] := by
  induction r with
  | eof | fail err => cases h
  | more chunk rest ih => exact List.append_ne_nil_of_right_ne_nil _ (ih h)
  | last chunk err => simpa [endsAbruptly, data] using h

/-- At the limit, it is seen along with the last bytes only. -/
theorem readAll_snd_of_eq {n : ℕ} {r : Reader} (h : r.data.length = n) :
    (r.readAll n).2 = if r.endsAbruptly then r.failure else none := by
  induction r generalizing n with
  | eof => rfl
  | fail err => exact if_pos h.symm
  | more chunk rest ih =>
      rw [data, List.length_append] at h
      rw [readAll]
      split
      · exact ih (by omega)
      · -- nothing is left to be asked for
        rename_i hlen
        have hrest : rest.data = [] := List.eq_nil_of_length_eq_zero (by omega)
        rw [endsAbruptly, Bool.eq_false_iff.mpr fun h => data_ne_nil h hrest]
        rfl
  | last chunk err =>
      rw [data] at h
      subst h
      cases chunk with
      | nil => rfl
      | cons b chunk => simp [readAll, endsAbruptly, failure]

end Reader

end Lib
