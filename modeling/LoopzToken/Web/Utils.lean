import Mathlib.Data.Rat.Defs
import LoopzToken.Lib.BigInt
import LoopzToken.Lib.Split
import LoopzToken.Billing.Contract

/-!
# LoopzToken.Web.Utils

`formatMicroCNY`: an amount in micro-CNY as a text in yuan and fen.

The text shows the amount truncated to whole fen (`formatMicroCNY_truncates`). The sign
is taken from the amount before it is truncated, so zero fen have two texts, one for
amounts below zero (`formatMicroCNY_canonical_iff`).
-/

namespace LoopzToken.Web

open Lib TextDecoder BigInt

/-! ### Formatting -/

/-- What `formatMicroCNY` is called with. A number stands for its exact value, which NaN
and the infinities do not have. -/
inductive Micros
  | string (text : JsString)
  | number (value : Option ℚ)
  | bigint (m : ℤ)

/-- What `BigInt` throws. -/
inductive ConversionError
  | syntaxError
  | rangeError
  deriving DecidableEq, Repr

/-- `BigInt(micros)`. -/
def toBigInt : Micros → Except ConversionError ℤ
  | .bigint m => .ok m
  | .string text =>
      match ofText text with
      | some m => .ok m
      | none => .error .syntaxError
  | .number (some q) => if q.den = 1 then .ok q.num else .error .rangeError
  | .number none => .error .rangeError

/-- `MICROS_PER_CNY`. -/
def microsPerCNY : ℤ := 1000000

/-- The code unit `¥`. -/
def yuanSign : UInt16 := 0xA5

def formatMicroCNY (micros : Micros) : Except ConversionError JsString :=
  match toBigInt micros with
  | .error err => .error err
  | .ok microsBig =>
      let sign := if microsBig < 0 then ascii "-" else []
      let abs := if microsBig < 0 then -microsBig else microsBig
      let yuan := abs.tdiv microsPerCNY
      let cents := (padStart 6 (toText (abs.tmod microsPerCNY))).take 2
      .ok (sign ++ [yuanSign] ++ toText yuan ++ ascii "." ++ cents)

example : formatMicroCNY (.string (ascii "1.5")) = .error .syntaxError := by decide +kernel

/-! ### Amounts and their texts -/

/-- The call is about the amount `m`: a bigint, an integral number, or a string that the
contract's `micros` accepts. -/
inductive Denotes : Micros → ℤ → Prop
  | bigint (m : ℤ) : Denotes (.bigint m) m
  | number (m : ℤ) : Denotes (.number (some m)) m
  | string {text : JsString} (h : (Billing.micros.parse (some (.string text))).isSome = true) :
      Denotes (.string text) (value text)

/-- The number of fen in a text without a sign. -/
def readYuan (text : JsString) : Option ℕ :=
  if text.head? = some yuanSign then
    match text.tail.splitOn 46 with
    | [yuan, cents] =>
        if yuan ≠ [] ∧ cents.length = 2 ∧ (yuan ++ cents).all fun u => IsDigit u then
          some (value yuan * 100 + value cents)
        else none
    | _ => none
  else none

/-- Whether the sign is there, and the number of fen. -/
def readText (text : JsString) : Option (Bool × ℕ) :=
  if text.head? = some 45 then (readYuan text.tail).map fun n => (true, n)
  else (readYuan text).map fun n => (false, n)

/-- A text, read as a signed number of fen. -/
def fen (text : JsString) : Option ℤ :=
  (readText text).map fun r => if r.1 then -(r.2 : ℤ) else r.2

/-- The parts of the text of an amount: an optional sign, the shortest decimal form of the
whole yuan, and two digits. -/
structure Displays (m : ℤ) (sign yuan cents : JsString) : Prop where
  sign_cases : sign = [] ∨ sign = ascii "-"
  nonneg : 0 ≤ m → sign = []
  negative : m.tdiv 10000 < 0 → sign = ascii "-"
  yuan_ne_nil : yuan ≠ []
  yuan_digits : ∀ u ∈ yuan, IsDigit u
  yuan_shortest : yuan = [48] ∨ yuan.head? ≠ some 48
  yuan_value : value yuan = m.natAbs / 1000000
  cents_digits : ∀ u ∈ cents, IsDigit u
  cents_length : cents.length = 2

/-! ### The parts of the text -/

/-- The sign of an amount. -/
def signOf (m : ℤ) : JsString := if m < 0 then ascii "-" else []

/-- The two digits behind the point. -/
def centsOf (m : ℤ) : JsString := fixed 2 (m.natAbs % 1000000 / 10000)

/-- The text that `formatMicroCNY` makes of an amount. -/
def shown (m : ℤ) : JsString :=
  signOf m ++ [yuanSign] ++ numeral (m.natAbs / 1000000) ++ ascii "." ++ centsOf m

/-- The contract's strings are decimal digits. -/
theorem isDigit_of_micros {text : JsString}
    (h : (Billing.micros.parse (some (.string text))).isSome = true) :
    text ≠ [] ∧ ∀ u ∈ text, IsDigit u := by
  simp only [Billing.micros, Zod.Schema.parse, List.all_cons, List.all_nil, Bool.and_true] at h
  split at h
  · rename_i hpass
    exact Zod.Check.digits_passes.mp hpass
  · cases h

theorem toBigInt_of_denotes {micros : Micros} {m : ℤ} (h : Denotes micros m) :
    toBigInt micros = .ok m := by
  cases h with
  | bigint => rfl
  | number => simp [toBigInt]
  | string h =>
      obtain ⟨hne, hdigits⟩ := isDigit_of_micros h
      rw [toBigInt, ofText_of_isDigit hne hdigits]

/-- The source's way to the digits agrees with the division. -/
theorem formatMicroCNY_eq {micros : Micros} {m : ℤ} (h : Denotes micros m) :
    formatMicroCNY micros = .ok (shown m) := by
  have habs : (if m < 0 then -m else m) = (m.natAbs : ℤ) := by split <;> omega
  have htext : ∀ n : ℕ, toText n = numeral n := fun n => if_neg (by omega)
  have hcents : (padStart 6 (numeral (m.natAbs % 1000000))).take 2 = centsOf m := by
    have hpad : padStart 6 (numeral (m.natAbs % 1000000)) = fixed 6 (m.natAbs % 1000000) :=
      padStart_numeral (k := 5) (Nat.mod_lt _ (by decide))
    rw [hpad]
    exact take_fixed 2 4 _
  have hdiv : (m.natAbs : ℤ).tdiv microsPerCNY = (m.natAbs / 1000000 : ℕ) := rfl
  have hmod : (m.natAbs : ℤ).tmod microsPerCNY = (m.natAbs % 1000000 : ℕ) := rfl
  rw [formatMicroCNY, toBigInt_of_denotes h]
  dsimp only
  rw [habs, hdiv, hmod, htext, htext, hcents]
  rfl

/-! ### Reading the text back -/

theorem readYuan_shown (m : ℤ) :
    readYuan (yuanSign :: (numeral (m.natAbs / 1000000) ++ 46 :: centsOf m)) =
      some (m.natAbs / 10000) := by
  have hyuan : ∀ u ∈ numeral (m.natAbs / 1000000), IsDigit u := fun u => isDigit_of_mem_numeral
  have hcents : ∀ u ∈ centsOf m, IsDigit u := fun u => isDigit_of_mem_fixed
  have hsplit : (numeral (m.natAbs / 1000000) ++ 46 :: centsOf m).splitOn 46 =
      [numeral (m.natAbs / 1000000), centsOf m] :=
    splitOn_eq_two.mpr ⟨rfl, fun h => absurd (hyuan 46 h) (by decide),
      fun h => absurd (hcents 46 h) (by decide)⟩
  have hdigits : ((numeral (m.natAbs / 1000000) ++ centsOf m).all fun u => IsDigit u) = true := by
    rw [List.all_append, Bool.and_eq_true]
    exact ⟨List.all_eq_true.mpr fun u hu => decide_eq_true (hyuan u hu),
      List.all_eq_true.mpr fun u hu => decide_eq_true (hcents u hu)⟩
  have hvalue : value (centsOf m) = m.natAbs % 1000000 / 10000 % 100 := value_fixed ..
  rw [readYuan, List.head?_cons, if_pos rfl, List.tail_cons, hsplit]
  dsimp only
  rw [if_pos ⟨numeral_ne_nil _, length_fixed .., hdigits⟩, value_numeral, hvalue]
  congr 1
  omega

theorem readText_shown (m : ℤ) :
    readText (shown m) = some (decide (m < 0), m.natAbs / 10000) := by
  have hminus : ascii "-" = [45] := by decide +kernel
  have hdot : ascii "." = [46] := by decide +kernel
  have hsign : yuanSign ≠ 45 := by decide
  have hyuan := readYuan_shown m
  rw [shown, signOf, hminus, hdot]
  by_cases hm : m < 0 <;> simp [hm, readText, hsign, hyuan]

/-- Rounding toward zero divides the magnitude. -/
theorem tdiv_fen (m : ℤ) :
    m.tdiv 10000 = if m < 0 then -((m.natAbs / 10000 : ℕ) : ℤ) else (m.natAbs / 10000 : ℕ) := by
  by_cases hm : m < 0
  · have habs : m = -(m.natAbs : ℤ) := by omega
    rw [if_pos hm]
    conv_lhs => rw [habs, Int.neg_tdiv]
    rfl
  · have habs : m = (m.natAbs : ℤ) := by omega
    rw [if_neg hm]
    conv_lhs => rw [habs]
    rfl

theorem fen_shown (m : ℤ) : fen (shown m) = some (m.tdiv 10000) := by
  rw [fen, readText_shown, tdiv_fen]
  by_cases hm : m < 0 <;> simp [hm]

theorem displays_shown (m : ℤ) :
    Displays m (signOf m) (numeral (m.natAbs / 1000000)) (centsOf m) := by
  refine ⟨?_, fun hm => if_neg (by omega), fun hm => if_pos ?_, numeral_ne_nil _,
    fun u => isDigit_of_mem_numeral, numeral_zero_or_head _, value_numeral _,
    fun u => isDigit_of_mem_fixed, length_fixed ..⟩
  · by_cases hm : m < 0 <;> simp [signOf, hm]
  · by_contra hge
    rw [tdiv_fen, if_neg hge] at hm
    omega

/-! ### What is displayed -/

/-- **The text is the amount truncated to fen**, for every amount of any size: given as a
bigint, a number or a string of the contract. -/
theorem formatMicroCNY_truncates (micros : Micros) (m : ℤ) (h : Denotes micros m) :
    ∃ sign yuan cents, Displays m sign yuan cents ∧
      formatMicroCNY micros = .ok (sign ++ [yuanSign] ++ yuan ++ ascii "." ++ cents) ∧
      fen (sign ++ [yuanSign] ++ yuan ++ ascii "." ++ cents) = some (m.tdiv 10000) ∧
      (m - 10000 * m.tdiv 10000).natAbs < 10000 ∧
      ∀ micros' m' text', Denotes micros' m' → m ≤ m' → formatMicroCNY micros' = .ok text' →
        ∃ shown', fen text' = some shown' ∧ m.tdiv 10000 ≤ shown' := by
  refine ⟨_, _, _, displays_shown m, formatMicroCNY_eq h, fen_shown m, ?_,
    fun micros' m' text' h' hle htext' => ⟨m'.tdiv 10000, ?_, ?_⟩⟩
  · rw [tdiv_fen]
    split <;> omega
  · rw [formatMicroCNY_eq h'] at htext'
    obtain rfl := Except.ok.inj htext'
    exact fen_shown m'
  · rw [tdiv_fen, tdiv_fen]
    split <;> split <;> omega

/-- Leading zeros, and fen that are cut off. -/
theorem formatMicroCNY_leading_zeros :
    ∃ sign yuan cents, Displays 1567890 sign yuan cents ∧
      formatMicroCNY (.string (ascii "0001567890")) =
        .ok (sign ++ [yuanSign] ++ yuan ++ ascii "." ++ cents) ∧
      fen (sign ++ [yuanSign] ++ yuan ++ ascii "." ++ cents) = some 156 := by
  have hmicros : (Billing.micros.parse (some (.string (ascii "0001567890")))).isSome = true := by
    decide +kernel
  obtain ⟨sign, yuan, cents, hdisplays, htext, hfen, -⟩ :=
    formatMicroCNY_truncates (.string (ascii "0001567890")) 1567890 (.string hmicros)
  exact ⟨sign, yuan, cents, hdisplays, htext, hfen⟩

/-- Two amounts are displayed alike when they have the same sign and as many fen. -/
theorem shown_eq_iff (a b : ℤ) :
    shown a = shown b ↔ (a < 0 ↔ b < 0) ∧ a.natAbs / 10000 = b.natAbs / 10000 := by
  constructor
  · intro h
    have hread := congrArg readText h
    rw [readText_shown, readText_shown] at hread
    obtain ⟨hsign, hfen⟩ := Prod.mk.inj (Option.some.inj hread)
    exact ⟨decide_eq_decide.mp hsign, hfen⟩
  · intro h
    obtain ⟨hsign, hfen⟩ := h
    have hyuan : a.natAbs / 1000000 = b.natAbs / 1000000 := by omega
    have hcents : a.natAbs % 1000000 / 10000 = b.natAbs % 1000000 / 10000 := by omega
    simp only [shown, signOf, centsOf, hsign, hyuan, hcents]

/-- **When equal fen are displayed alike**, for all pairs of amounts: unless both
amounts are cut off to zero and exactly one of them is below zero. -/
theorem formatMicroCNY_canonical_iff (a b : ℤ) :
    (formatMicroCNY (.bigint a) = formatMicroCNY (.bigint b) ↔
        a.tdiv 10000 = b.tdiv 10000) ↔
      ¬ (a.natAbs < 10000 ∧ b.natAbs < 10000 ∧ (a < 0 ↔ 0 ≤ b)) := by
  rw [formatMicroCNY_eq (.bigint a), formatMicroCNY_eq (.bigint b), Except.ok.injEq, shown_eq_iff,
    tdiv_fen, tdiv_fen]
  split <;> split <;> omega

/-- Half a fen owed, and nothing. -/
theorem negative_zero_shown :
    formatMicroCNY (.bigint (-5000)) = .ok (ascii "-" ++ [yuanSign] ++ ascii "0.00") ∧
      formatMicroCNY (.bigint 0) = .ok ([yuanSign] ++ ascii "0.00") ∧
      ¬ (formatMicroCNY (.bigint (-5000)) = formatMicroCNY (.bigint 0) ↔
        (-5000 : ℤ).tdiv 10000 = (0 : ℤ).tdiv 10000) := by
  refine ⟨by decide +kernel, by decide +kernel, by decide +kernel⟩

end LoopzToken.Web
