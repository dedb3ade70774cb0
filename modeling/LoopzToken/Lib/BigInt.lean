import Mathlib.Algebra.Ring.Nat
import Mathlib.Data.Nat.Init
import Mathlib.Tactic.Common
import LoopzToken.Lib.TextDecoder

/-!
# Lib.BigInt

The `BigInt` of JavaScript in texts: `BigInt(s)`, `toString`, and the padding and
cutting of decimal digits.

A decimal text is read by `value`. `toText` writes the shortest text with a value
(`value_numeral`, `numeral_zero_or_head`), and padding a number to `k` places writes
its last `k` digits (`padStart_numeral`), of which the first ones are the digits of a
quotient (`take_fixed`).
-/

namespace Lib.BigInt

open TextDecoder

/-! ### Writing -/

/-- The code unit of a decimal digit. -/
def digit (d : ℕ) : UInt16 := UInt16.ofNat (48 + d)

/-- The decimal digits of a number. -/
def numeral (n : ℕ) : JsString := (Nat.toDigits 10 n).map fun c => UInt16.ofNat c.toNat

/-- `toString`. -/
def toText (m : ℤ) : JsString :=
  if m < 0 then 45 :: numeral m.natAbs else numeral m.natAbs

/-- `padStart(k, '0')`. -/
def padStart (k : ℕ) (s : JsString) : JsString := List.replicate (k - s.length) 48 ++ s

/-- The last `k` decimal digits of a number. -/
def fixed : ℕ → ℕ → JsString
  | 0, _ => []
  | k + 1, n => fixed k (n / 10) ++ [digit (n % 10)]

/-! ### Reading -/

/-- The value of a digit, for every radix up to 36. -/
def digitValue (u : UInt16) : ℕ :=
  if 48 ≤ u.toNat ∧ u.toNat ≤ 57 then u.toNat - 48
  else if 65 ≤ u.toNat ∧ u.toNat ≤ 90 then u.toNat - 55
  else if 97 ≤ u.toNat ∧ u.toNat ≤ 122 then u.toNat - 87
  else 36

/-- A sequence of digits, most significant first. -/
def digits (radix : ℕ) (s : JsString) : Option ℕ :=
  if s ≠ [] ∧ s.all fun u => digitValue u < radix then
    some (s.foldl (fun n u => n * radix + digitValue u) 0)
  else none

/-- The radix that a text announces, and what is left of it. -/
def radixOf (s : JsString) : ℕ × JsString :=
  match s with
  | z :: u :: ds =>
      if z = 48 ∧ (u = 120 ∨ u = 88) then (16, ds)
      else if z = 48 ∧ (u = 111 ∨ u = 79) then (8, ds)
      else if z = 48 ∧ (u = 98 ∨ u = 66) then (2, ds)
      else (10, s)
  | _ => (10, s)

/-- `BigInt(s)` of a string; `none` is a `SyntaxError`. -/
def ofText (s : JsString) : Option ℤ :=
  match trim s with
  | [] => some 0
  | u :: ds =>
      if u = 45 then (digits 10 ds).map fun n => -(n : ℤ)
      else if u = 43 then (digits 10 ds).map fun n => (n : ℤ)
      else (digits (radixOf (u :: ds)).1 (radixOf (u :: ds)).2).map fun n => (n : ℤ)

example : ofText (ascii " 0x1F ") = some 31 := by decide +kernel

/-! ### Decimal digits -/

def IsDigit (u : UInt16) : Prop := 48 ≤ u.toNat ∧ u.toNat ≤ 57

/-- The number that decimal digits denote. -/
def value (s : JsString) : ℕ := s.foldl (fun n u => n * 10 + (u.toNat - 48)) 0

theorem toNat_digit {d : ℕ} (h : d < 10) : (digit d).toNat = 48 + d := by
  rw [digit, UInt16.toNat_ofNat']
  exact Nat.mod_eq_of_lt (by omega)

theorem isDigit_digit {d : ℕ} (h : d < 10) : IsDigit (digit d) := by
  rw [IsDigit, toNat_digit h]
  omega

theorem value_append_digit (s : JsString) {d : ℕ} (h : d < 10) :
    value (s ++ [digit d]) = value s * 10 + d := by
  rw [value, List.foldl_append, List.foldl_cons, List.foldl_nil, toNat_digit h,
    Nat.add_sub_cancel_left]
  rfl

/-- The digits of a number, from the last one on. -/
theorem numeral_eq (n : ℕ) :
    numeral n = if n < 10 then [digit n] else numeral (n / 10) ++ [digit (n % 10)] := by
  have hchar : ∀ d < 10, UInt16.ofNat (Nat.digitChar d).toNat = digit d := by decide
  unfold numeral
  rw [Nat.toDigits_eq_if (by decide)]
  split
  · rename_i h
    simp [hchar n h]
  · simp [hchar (n % 10) (Nat.mod_lt _ (by decide))]

theorem value_numeral (n : ℕ) : value (numeral n) = n := by
  induction n using Nat.strong_induction_on with
  | _ n ih =>
      rw [numeral_eq]
      split
      · rename_i h
        rw [← List.nil_append [digit n], value_append_digit [] h]
        exact Nat.zero_add n
      · rename_i h
        rw [value_append_digit _ (Nat.mod_lt _ (by decide)), ih (n / 10) (by omega)]
        omega

theorem isDigit_of_mem_numeral {n : ℕ} {u : UInt16} (hu : u ∈ numeral n) : IsDigit u := by
  induction n using Nat.strong_induction_on with
  | _ n ih =>
      rw [numeral_eq] at hu
      split at hu
      · rename_i h
        rw [List.mem_singleton.mp hu]
        exact isDigit_digit h
      · rename_i h
        rcases List.mem_append.mp hu with hu | hu
        · exact ih (n / 10) (by omega) hu
        · rw [List.mem_singleton.mp hu]
          exact isDigit_digit (Nat.mod_lt _ (by decide))

theorem numeral_ne_nil (n : ℕ) : numeral n ≠ [] := by
  rw [numeral_eq]
  split <;> simp

/-- No superfluous zero stands in front. -/
theorem numeral_zero_or_head (n : ℕ) : numeral n = [48] ∨ (numeral n).head? ≠ some 48 := by
  induction n using Nat.strong_induction_on with
  | _ n ih =>
      by_cases h0 : n = 0
      · exact .inl (by rw [h0]; decide)
      · refine .inr ?_
        rw [numeral_eq]
        split
        · rename_i h
          intro heq
          have hd := congrArg UInt16.toNat (Option.some.inj heq)
          rw [toNat_digit h] at hd
          exact h0 (by simpa using hd)
        · rename_i h
          rw [List.head?_append_of_ne_nil _ (numeral_ne_nil _)]
          rcases ih (n / 10) (by omega) with hz | hz
          · have hv := congrArg value hz
            rw [value_numeral] at hv
            exact absurd hv (by simp [value]; omega)
          · exact hz

/-! ### Fixed places -/

theorem length_fixed (k n : ℕ) : (fixed k n).length = k := by
  induction k generalizing n with
  | zero => rfl
  | succ k ih => rw [fixed, List.length_append, ih]; rfl

theorem isDigit_of_mem_fixed {k n : ℕ} {u : UInt16} (hu : u ∈ fixed k n) : IsDigit u := by
  induction k generalizing n with
  | zero => exact absurd hu List.not_mem_nil
  | succ k ih =>
      rcases List.mem_append.mp hu with hu | hu
      · exact ih hu
      · rw [List.mem_singleton.mp hu]
        exact isDigit_digit (Nat.mod_lt _ (by decide))

/-- The last digits denote the remainder. -/
theorem value_fixed (k n : ℕ) : value (fixed k n) = n % 10 ^ k := by
  induction k generalizing n with
  | zero => rw [pow_zero, Nat.mod_one]; rfl
  | succ k ih =>
      rw [fixed, value_append_digit _ (Nat.mod_lt _ (by decide)), ih, pow_succ,
        Nat.mul_comm (10 ^ k), Nat.mod_mul]
      omega

/-- **Padding writes the last digits**, if there are places enough. -/
theorem padStart_numeral {k n : ℕ} (h : n < 10 ^ (k + 1)) :
    padStart (k + 1) (numeral n) = fixed (k + 1) n := by
  induction k generalizing n with
  | zero =>
      have hn : n < 10 := by simpa using h
      rw [numeral_eq, if_pos hn, fixed, Nat.mod_eq_of_lt hn]
      rfl
  | succ k ih =>
      have hdiv : n / 10 < 10 ^ (k + 1) := by
        rw [Nat.div_lt_iff_lt_mul (by decide)]
        rwa [pow_succ] at h
      rw [fixed, ← ih hdiv, numeral_eq n]
      split
      · -- the quotient is 0, whose numeral takes one of the places
        rename_i hn
        rw [Nat.div_eq_of_lt hn, Nat.mod_eq_of_lt hn]
        have hzero : numeral 0 = [48] := by decide
        simp [padStart, hzero, List.replicate_succ']
      · simp [padStart]

/-- The first of the last digits. -/
theorem take_fixed (j i n : ℕ) : (fixed (j + i) n).take j = fixed j (n / 10 ^ i) := by
  induction i generalizing n with
  | zero =>
      rw [Nat.add_zero, pow_zero, Nat.div_one]
      exact List.take_of_length_le (Nat.le_of_eq (length_fixed j n))
  | succ i ih =>
      have hlen : j ≤ (fixed (j + i) (n / 10)).length := by
        rw [length_fixed]
        exact Nat.le_add_right j i
      rw [← Nat.add_assoc, fixed, List.take_append_of_le_length hlen, ih, Nat.div_div_eq_div_mul,
        pow_succ, Nat.mul_comm]

/-! ### Reading decimal digits -/

instance (u : UInt16) : Decidable (IsDigit u) := inferInstanceAs (Decidable (_ ∧ _))

theorem IsDigit.ne {u c : UInt16} (h : IsDigit u) (hc : ¬ IsDigit c) : u ≠ c := fun heq =>
  hc (heq ▸ h)

theorem digits_of_isDigit {s : JsString} (hs : s ≠ []) (h : ∀ u ∈ s, IsDigit u) :
    digits 10 s = some (value s) := by
  have hval : ∀ u ∈ s, digitValue u = u.toNat - 48 := fun u hu => if_pos (h u hu)
  have hlt : (s.all fun u => digitValue u < 10) = true := by
    refine List.all_eq_true.mpr fun u hu => decide_eq_true ?_
    have hdigit := h u hu
    rw [hval u hu]
    unfold IsDigit at hdigit
    omega
  rw [digits, if_pos ⟨hs, hlt⟩, value]
  refine congrArg some (List.foldl_ext _ _ _ fun n u hu => ?_)
  rw [hval u hu]

/-- Two digits in front announce no other radix. -/
theorem radixOf_of_isDigit {s : JsString} (h : ∀ u ∈ s, IsDigit u) : radixOf s = (10, s) := by
  match s with
  | [] | [_] => rfl
  | z :: u :: ds =>
      have hu : IsDigit u := h u (by simp)
      have hne : ∀ c, ¬ IsDigit c → (u = c) = False := fun c hc => eq_false (hu.ne hc)
      simp [radixOf, hne 120 (by decide), hne 88 (by decide), hne 111 (by decide),
        hne 79 (by decide), hne 98 (by decide), hne 66 (by decide)]

/-- Decimal digits are read as what they denote, leading zeros included. -/
theorem ofText_of_isDigit {s : JsString} (hs : s ≠ []) (h : ∀ u ∈ s, IsDigit u) :
    ofText s = some (value s : ℤ) := by
  have hspace : ∀ u ∈ s, isSpace u = false := by
    intro u hu
    have hdigit := h u hu
    unfold IsDigit at hdigit
    exact isSpace_eq_false (by omega) (by omega)
  have htrim : trim s = s := trim_eq_self (fun u hu => hspace u (List.mem_of_mem_head? hu))
    fun u hu => hspace u (List.mem_of_getLast? hu)
  rw [ofText, htrim]
  cases s with
  | nil => exact absurd rfl hs
  | cons u ds =>
      have hu := h u (List.mem_cons_self ..)
      dsimp only
      rw [if_neg (hu.ne (by decide)), if_neg (hu.ne (by decide)), radixOf_of_isDigit h,
        digits_of_isDigit hs h]
      rfl

end Lib.BigInt
