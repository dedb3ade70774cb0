import LoopzToken.Lib.Bytes

/-!
# Lib.Hex

Hexadecimal digits in ASCII, and strings of bytes written with them. Encoding
uses one case; decoding accepts both, so it is not injective: `decode_iff` says
which texts decode to which bytes.
-/

namespace Lib.Hex

/-! ### Digits -/

/-- `0123456789abcdef`. -/
def lowerDigit (n : ℕ) : UInt8 := UInt8.ofNat (if n < 10 then 48 + n else 87 + n)

/-- `0123456789ABCDEF`. -/
def upperDigit (n : ℕ) : UInt8 := UInt8.ofNat (if n < 10 then 48 + n else 55 + n)

/-- The value of a digit of either case. -/
def value (c : UInt8) : Option ℕ :=
  if 48 ≤ c.toNat ∧ c.toNat ≤ 57 then some (c.toNat - 48)
  else if 97 ≤ c.toNat ∧ c.toNat ≤ 102 then some (c.toNat - 87)
  else if 65 ≤ c.toNat ∧ c.toNat ≤ 70 then some (c.toNat - 55)
  else none

theorem value_iff {c : UInt8} {n : ℕ} :
    value c = some n ↔ n < 16 ∧ (c = lowerDigit n ∨ c = upperDigit n) := by
  have hc := c.toNat_lt
  constructor
  · intro h
    unfold value at h
    unfold lowerDigit upperDigit
    simp only [← UInt8.toNat_inj, UInt8.toNat_ofNat']
    grind
  · intro h
    obtain ⟨hn, h⟩ := h
    unfold value
    simp only [lowerDigit, upperDigit, ← UInt8.toNat_inj, UInt8.toNat_ofNat'] at h
    grind

theorem value_upperDigit {n : ℕ} (hn : n < 16) : value (upperDigit n) = some n :=
  value_iff.mpr ⟨hn, .inr rfl⟩

/-- The byte written with the digits `hi` and `lo`. -/
def byte (hi lo : ℕ) : UInt8 := UInt8.ofNat (16 * hi + lo)

theorem byte_eq_iff {b : UInt8} {hi lo : ℕ} (hhi : hi < 16) (hlo : lo < 16) :
    byte hi lo = b ↔ hi = b.toNat / 16 ∧ lo = b.toNat % 16 := by
  have hb := b.toNat_lt
  simp only [byte, ← UInt8.toNat_inj, UInt8.toNat_ofNat']
  omega

theorem byte_div_mod (b : UInt8) : byte (b.toNat / 16) (b.toNat % 16) = b := by
  have hb := b.toNat_lt
  exact (byte_eq_iff (by omega) (by omega)).mpr ⟨rfl, rfl⟩

/-! ### Texts -/

/-- `hex.EncodeToString`. -/
def encode (bs : Bytes) : Bytes :=
  bs.flatMap fun b => [lowerDigit (b.toNat / 16), lowerDigit (b.toNat % 16)]

/-- `hex.DecodeString`: an error when the length is odd or a byte is no digit. -/
def decode : Bytes → Option Bytes
  | [] => some []
  | [_] => none
  | a :: c :: text =>
      match value a, value c with
      | some hi, some lo => (decode text).map (byte hi lo :: ·)
      | _, _ => none

/-- `text` writes the bytes `bs` with digits of either case. -/
inductive Spells : Bytes → Bytes → Prop
  | nil : Spells [] []
  | cons {bs text : Bytes} {b a c : UInt8}
      (ha : a = lowerDigit (b.toNat / 16) ∨ a = upperDigit (b.toNat / 16))
      (hc : c = lowerDigit (b.toNat % 16) ∨ c = upperDigit (b.toNat % 16))
      (h : Spells bs text) : Spells (b :: bs) (a :: c :: text)

theorem spells_encode (bs : Bytes) : Spells bs (encode bs) := by
  induction bs with
  | nil => exact .nil
  | cons b bs ih => exact .cons (.inl rfl) (.inl rfl) ih

/-- **Exactly the spellings decode.** -/
theorem decode_iff {text bs : Bytes} : decode text = some bs ↔ Spells bs text := by
  constructor
  · intro h
    induction text using decode.induct generalizing bs with
    | case1 =>
        obtain rfl := Option.some.inj h
        exact .nil
    | case2 => cases h
    | case3 a c text hi lo hlo hhi ih =>
        simp only [decode, hhi, hlo, Option.map_eq_some_iff] at h
        obtain ⟨bs, hbs, rfl⟩ := h
        obtain ⟨ha, ha'⟩ := value_iff.mp hhi
        obtain ⟨hc, hc'⟩ := value_iff.mp hlo
        obtain ⟨hdiv, hmod⟩ := (byte_eq_iff ha hc).mp rfl
        refine .cons ?_ ?_ (ih hbs)
        · rwa [← hdiv]
        · rwa [← hmod]
    | case4 a c text hno =>
        rw [decode] at h
        split at h
        · rename_i hhi hlo
          exact absurd hlo (hno _ _ hhi)
        · cases h
  · intro h
    induction h with
    | nil => rfl
    | @cons bs text b a c ha hc h ih =>
        have hb := b.toNat_lt
        rw [decode, value_iff.mpr ⟨by omega, ha⟩, value_iff.mpr ⟨by omega, hc⟩]
        simp only [ih, Option.map_some, byte_div_mod]

example : decode (utf8 "0aFf") = some [0x0A, 0xFF] := by decide

theorem decode_encode (bs : Bytes) : decode (encode bs) = some bs :=
  decode_iff.mpr (spells_encode bs)

theorem encode_injective {as bs : Bytes} (h : encode as = encode bs) : as = bs :=
  Option.some.inj ((decode_encode as).symm.trans (h ▸ decode_encode bs))

theorem Spells.length {bs text : Bytes} (h : Spells bs text) : text.length = 2 * bs.length := by
  induction h with
  | nil => rfl
  | cons ha hc h ih =>
      rw [List.length_cons, List.length_cons, List.length_cons, ih]
      omega

/-- Every byte of a spelling is a digit. -/
theorem Spells.value {bs text : Bytes} (h : Spells bs text) :
    ∀ c ∈ text, (Hex.value c).isSome = true := by
  induction h with
  | nil => exact fun c hc => absurd hc List.not_mem_nil
  | @cons bs text b a c ha hc h ih =>
      have hb := b.toNat_lt
      refine List.forall_mem_cons.mpr ⟨?_, List.forall_mem_cons.mpr ⟨?_, ih⟩⟩
      · rw [value_iff.mpr ⟨by omega, ha⟩, Option.isSome_some]
      · rw [value_iff.mpr ⟨by omega, hc⟩, Option.isSome_some]

end Lib.Hex
