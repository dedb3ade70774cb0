import LoopzToken.Lib.TextDecoder

/-!
# Lib.TextEncoder

`TextEncoder.encode`: the UTF-8 of a string of code units, with the replacement
character for a surrogate that has no partner.

`decode_encode` is the round trip: what a valid Unicode string is encoded to is
decoded to the string itself, unless it starts with a byte order mark.
-/

namespace Lib.TextEncoder

open TextDecoder

/-! ### Encoding -/

/-- The bytes of a code point. -/
def bytes (n : ℕ) : Bytes :=
  if n ≤ 0x7F then [UInt8.ofNat n]
  else if n ≤ 0x7FF then [UInt8.ofNat (0xC0 + n / 0x40), UInt8.ofNat (0x80 + n % 0x40)]
  else if n ≤ 0xFFFF then
    [UInt8.ofNat (0xE0 + n / 0x1000), UInt8.ofNat (0x80 + n / 0x40 % 0x40),
      UInt8.ofNat (0x80 + n % 0x40)]
  else
    [UInt8.ofNat (0xF0 + n / 0x40000), UInt8.ofNat (0x80 + n / 0x1000 % 0x40),
      UInt8.ofNat (0x80 + n / 0x40 % 0x40), UInt8.ofNat (0x80 + n % 0x40)]

def isHigh (u : UInt16) : Bool := 0xD800 ≤ u.toNat && u.toNat ≤ 0xDBFF

def isLow (u : UInt16) : Bool := 0xDC00 ≤ u.toNat && u.toNat ≤ 0xDFFF

/-- The code points of a string. -/
def points : JsString → List ℕ
  | [] => []
  | [u] => [if isHigh u || isLow u then replacement else u.toNat]
  | u :: v :: s =>
      if isHigh u && isLow v then
        (0x10000 + (u.toNat - 0xD800) * 0x400 + (v.toNat - 0xDC00)) :: points s
      else (if isHigh u || isLow u then replacement else u.toNat) :: points (v :: s)

/-- `new TextEncoder().encode(s)`. -/
def encode (s : JsString) : Bytes := (points s).flatMap bytes

/-! ### Valid strings -/

/-- The string of the given characters. -/
def ofChars (cs : List Char) : JsString := cs.flatMap fun c => units c.toNat

/-- A valid Unicode string: a sequence of Unicode scalar values. -/
def Valid (s : JsString) : Prop := ∃ cs, s = ofChars cs

theorem Valid.append {s t : JsString} (hs : Valid s) (ht : Valid t) : Valid (s ++ t) := by
  obtain ⟨cs, rfl⟩ := hs
  obtain ⟨ds, rfl⟩ := ht
  exact ⟨cs ++ ds, List.flatMap_append.symm⟩

theorem char_bounds (c : Char) :
    c.toNat < 0xD800 ∨ 0xDFFF < c.toNat ∧ c.toNat < 0x110000 := c.valid

/-- Code units below the surrogates are characters. -/
theorem valid_of_lt {s : JsString} (h : ∀ u ∈ s, u.toNat < 0xD800) : Valid s := by
  refine ⟨s.map fun u => Char.ofNat u.toNat, ?_⟩
  rw [ofChars, List.flatMap_map]
  conv_lhs => rw [← List.flatMap_singleton' s]
  refine List.flatMap_congr fun u hu => ?_
  have hu' := h u hu
  have hval : (Char.ofNat u.toNat).toNat = u.toNat := by
    rw [Char.ofNat, dif_pos (Or.inl hu')]
    rfl
  rw [hval, units, if_pos (by omega)]
  simp

theorem valid_of_all {s : JsString} (h : (s.all fun u => u.toNat < 0xD800) = true) : Valid s :=
  valid_of_lt fun u hu => of_decide_eq_true (List.all_eq_true.mp h u hu)

/-! ### Surrogates -/

theorem toNat_ofNat_unit {u : ℕ} (hu : u < 0x10000) : (UInt16.ofNat u).toNat = u := by
  rw [UInt16.toNat_ofNat']
  exact Nat.mod_eq_of_lt hu

theorem isHigh_ofNat {u : ℕ} (hu : u < 0x10000) :
    isHigh (UInt16.ofNat u) = decide (0xD800 ≤ u ∧ u ≤ 0xDBFF) := by
  rw [isHigh, toNat_ofNat_unit hu, Bool.decide_and]

theorem isLow_ofNat {u : ℕ} (hu : u < 0x10000) :
    isLow (UInt16.ofNat u) = decide (0xDC00 ≤ u ∧ u ≤ 0xDFFF) := by
  rw [isLow, toNat_ofNat_unit hu, Bool.decide_and]

/-- A unit that is no surrogate stands for itself. -/
theorem points_cons {u : UInt16} (hhigh : isHigh u = false) (hlow : isLow u = false)
    (s : JsString) : points (u :: s) = u.toNat :: points s := by
  cases s <;> simp [points, hhigh, hlow]

theorem points_pair {u v : UInt16} (hhigh : isHigh u = true) (hlow : isLow v = true)
    (s : JsString) : points (u :: v :: s) =
      (0x10000 + (u.toNat - 0xD800) * 0x400 + (v.toNat - 0xDC00)) :: points s := by
  rw [points, hhigh, hlow]
  rfl

/-- A scalar value is read back from its code units. -/
theorem points_units_append {n : ℕ} (hn : n < 0xD800 ∨ 0xDFFF < n ∧ n < 0x110000)
    (s : JsString) : points (units n ++ s) = n :: points s := by
  unfold units
  split
  · rename_i hlt
    have hhigh : isHigh (UInt16.ofNat n) = false := by
      rw [isHigh_ofNat hlt, decide_eq_false_iff_not]
      omega
    have hlow : isLow (UInt16.ofNat n) = false := by
      rw [isLow_ofNat hlt, decide_eq_false_iff_not]
      omega
    rw [List.singleton_append, points_cons hhigh hlow, toNat_ofNat_unit hlt]
  · have hu : 0xD800 + (n - 0x10000) / 0x400 < 0x10000 := by omega
    have hv : 0xDC00 + (n - 0x10000) % 0x400 < 0x10000 := by omega
    have hhigh : isHigh (UInt16.ofNat (0xD800 + (n - 0x10000) / 0x400)) = true := by
      rw [isHigh_ofNat hu, decide_eq_true_eq]
      omega
    have hlow : isLow (UInt16.ofNat (0xDC00 + (n - 0x10000) % 0x400)) = true := by
      rw [isLow_ofNat hv, decide_eq_true_eq]
      omega
    have hn' : 0x10000 + (0xD800 + (n - 0x10000) / 0x400 - 0xD800) * 0x400 +
        (0xDC00 + (n - 0x10000) % 0x400 - 0xDC00) = n := by omega
    rw [List.cons_append, List.singleton_append, points_pair hhigh hlow,
      toNat_ofNat_unit hu, toNat_ofNat_unit hv, hn']

theorem points_ofChars (cs : List Char) : points (ofChars cs) = cs.map Char.toNat := by
  induction cs with
  | nil => rfl
  | cons c cs ih =>
      rw [ofChars, List.flatMap_cons, points_units_append (char_bounds c)]
      exact congrArg _ ih

/-! ### UTF-8 -/

theorem toNat_ofNat_byte {b : ℕ} (hb : b < 256) : (UInt8.ofNat b).toNat = b := by
  rw [UInt8.toNat_ofNat']
  exact Nat.mod_eq_of_lt hb

/-- A byte within the bounds, with more to come. -/
theorem codePoints_more {m lo hi code b : ℕ} (hlo : lo ≤ b) (hhi : b ≤ hi) (hb : b < 256)
    (bs : Bytes) : codePoints ⟨m + 2, lo, hi, code⟩ (UInt8.ofNat b :: bs) =
      codePoints ⟨m + 1, 0x80, 0xBF, code * 0x40 + b % 0x40⟩ bs := by
  have hnext : next ⟨m + 2, lo, hi, code⟩ b =
      ([], ⟨m + 1, 0x80, 0xBF, code * 0x40 + b % 0x40⟩) := by
    simp [next, Nat.not_lt.mpr hlo, Nat.not_lt.mpr hhi]
  rw [codePoints, toNat_ofNat_byte hb, hnext, List.nil_append]

/-- The last byte of a code point. -/
theorem codePoints_last {lo hi code b : ℕ} (hlo : lo ≤ b) (hhi : b ≤ hi) (hb : b < 256)
    (bs : Bytes) : codePoints ⟨1, lo, hi, code⟩ (UInt8.ofNat b :: bs) =
      (code * 0x40 + b % 0x40) :: codePoints .none bs := by
  have hnext : next ⟨1, lo, hi, code⟩ b = ([code * 0x40 + b % 0x40], .none) := by
    simp [next, Nat.not_lt.mpr hlo, Nat.not_lt.mpr hhi]
  rw [codePoints, toNat_ofNat_byte hb, hnext, List.singleton_append]

theorem codePoints_first {b : ℕ} (hb : b < 256) (bs : Bytes) :
    codePoints .none (UInt8.ofNat b :: bs) = (first b).1 ++ codePoints (first b).2 bs := by
  rw [codePoints, toNat_ofNat_byte hb]
  rfl

/-- A scalar value is read back from its bytes. -/
theorem codePoints_bytes_append {n : ℕ} (hn : n < 0xD800 ∨ 0xDFFF < n ∧ n < 0x110000)
    (bs : Bytes) : codePoints .none (bytes n ++ bs) = n :: codePoints .none bs := by
  unfold bytes
  split
  · rw [List.singleton_append, codePoints_first (by omega), first, if_pos (by omega)]
    rfl
  · split
    · rw [List.cons_append, List.singleton_append, codePoints_first (by omega), first,
        if_neg (by omega), if_pos (by omega), List.nil_append,
        codePoints_last (by omega) (by omega) (by omega)]
      congr 1
      omega
    · split
      · rw [List.cons_append, List.cons_append, List.singleton_append,
          codePoints_first (by omega), first, if_neg (by omega), if_neg (by omega),
          if_pos (by omega), List.nil_append,
          codePoints_more (m := 0) (by split <;> omega) (by split <;> omega) (by omega),
          codePoints_last (by omega) (by omega) (by omega)]
        congr 1
        omega
      · rw [List.cons_append, List.cons_append, List.cons_append, List.singleton_append,
          codePoints_first (by omega), first, if_neg (by omega), if_neg (by omega),
          if_neg (by omega), if_pos (by omega), List.nil_append,
          codePoints_more (m := 1) (by split <;> omega) (by split <;> omega) (by omega),
          codePoints_more (m := 0) (by omega) (by omega) (by omega),
          codePoints_last (by omega) (by omega) (by omega)]
        congr 1
        omega

theorem codePoints_flatMap_bytes (cs : List Char) :
    codePoints .none ((cs.map Char.toNat).flatMap bytes) = cs.map Char.toNat := by
  induction cs with
  | nil => rfl
  | cons c cs ih =>
      rw [List.map_cons, List.flatMap_cons, codePoints_bytes_append (char_bounds c), ih]

/-- **The round trip**: a valid string without a byte order mark in front is decoded
from its bytes. -/
theorem decode_encode {s : JsString} (hs : Valid s) (hbom : s.head? ≠ some 0xFEFF) :
    decode (encode s) = s := by
  obtain ⟨cs, rfl⟩ := hs
  rw [encode, points_ofChars, decode, codePoints_flatMap_bytes]
  have hflat : (cs.map Char.toNat).flatMap units = ofChars cs := List.flatMap_map ..
  split
  · rename_i points heq
    refine absurd ?_ hbom
    rw [← hflat, heq, List.flatMap_cons, units, if_pos (by omega)]
    rfl
  · exact hflat

end Lib.TextEncoder
