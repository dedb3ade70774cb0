import LoopzToken.Lib.Bytes

/-!
# Lib.TextDecoder

Strings of JavaScript as UTF-16 code units: `TextDecoder.decode` in its default
mode, which replaces malformed UTF-8 and drops a byte order mark, and
`String.prototype.trim`.
-/

namespace Lib.TextDecoder

/-- A string, as its code units. -/
abbrev JsString := List UInt16

/-! ### UTF-8 -/

/-- The decoder between two bytes: how many bytes of a code point are missing, the
bounds of the next one, and the bits so far. -/
structure Pending where
  missing : ℕ
  lower : ℕ
  upper : ℕ
  code : ℕ
  deriving DecidableEq, Repr

/-- Between two code points. -/
def Pending.none : Pending := ⟨0, 0x80, 0xBF, 0⟩

/-- The replacement character. -/
def replacement : ℕ := 0xFFFD

/-- The first byte of a code point: the code points that are complete, and what is
pending. -/
def first (b : ℕ) : List ℕ × Pending :=
  if b ≤ 0x7F then ([b], .none)
  else if 0xC2 ≤ b ∧ b ≤ 0xDF then ([], ⟨1, 0x80, 0xBF, b % 0x20⟩)
  else if 0xE0 ≤ b ∧ b ≤ 0xEF then
    ([], ⟨2, if b = 0xE0 then 0xA0 else 0x80, if b = 0xED then 0x9F else 0xBF, b % 0x10⟩)
  else if 0xF0 ≤ b ∧ b ≤ 0xF4 then
    ([], ⟨3, if b = 0xF0 then 0x90 else 0x80, if b = 0xF4 then 0x8F else 0xBF, b % 0x08⟩)
  else ([replacement], .none)

/-- One byte. A byte that cannot continue a code point starts a new one. -/
def next (st : Pending) (b : ℕ) : List ℕ × Pending :=
  if st.missing = 0 then first b
  else if b < st.lower ∨ st.upper < b then (replacement :: (first b).1, (first b).2)
  else
    let code := st.code * 0x40 + b % 0x40
    if st.missing = 1 then ([code], .none) else ([], ⟨st.missing - 1, 0x80, 0xBF, code⟩)

/-- The code points of a byte sequence, from a decoder state. -/
def codePoints (st : Pending) : Bytes → List ℕ
  | [] => if st.missing = 0 then [] else [replacement]
  | b :: bytes => (next st b.toNat).1 ++ codePoints (next st b.toNat).2 bytes

/-- The code units of a code point. -/
def units (n : ℕ) : JsString :=
  if n < 0x10000 then [UInt16.ofNat n]
  else [UInt16.ofNat (0xD800 + (n - 0x10000) / 0x400), UInt16.ofNat (0xDC00 + (n - 0x10000) % 0x400)]

/-- `new TextDecoder().decode(bytes)`. -/
def decode (bytes : Bytes) : JsString :=
  match codePoints .none bytes with
  | 0xFEFF :: points => points.flatMap units
  | points => points.flatMap units

example : decode [0xEF, 0xBB, 0xBF, 0xE2, 0x82, 0xAC, 0xE2, 0x82] = [0x20AC, 0xFFFD] := by decide

/-! ### White space -/

/-- `WhiteSpace` and `LineTerminator` of the language. -/
def isSpace (u : UInt16) : Bool :=
  (9 ≤ u.toNat && u.toNat ≤ 13) || u = 32 || u = 0xA0 || u = 0x1680 ||
    (0x2000 ≤ u.toNat && u.toNat ≤ 0x200A) || u = 0x2028 || u = 0x2029 || u = 0x202F ||
    u = 0x205F || u = 0x3000 || u = 0xFEFF

/-- `trim`. -/
def trim (s : JsString) : JsString :=
  ((s.dropWhile isSpace).reverse.dropWhile isSpace).reverse

/-- The visible characters of ASCII. -/
theorem isSpace_eq_false {u : UInt16} (hlo : 33 ≤ u.toNat) (hhi : u.toNat ≤ 126) :
    isSpace u = false := by
  have hne : ∀ c : UInt16, c.toNat < 33 ∨ 126 < c.toNat → (u = c) = False := by
    intro c hc
    refine eq_false fun heq => ?_
    subst heq
    omega
  have h1 : ¬ u.toNat ≤ 13 := by omega
  have h2 : ¬ 0x2000 ≤ u.toNat := by omega
  simp [isSpace, hne, h1, h2]

/-- A text that neither starts nor ends with white space. -/
theorem trim_eq_self {s : JsString} (hhead : ∀ u ∈ s.head?, isSpace u = false)
    (hlast : ∀ u ∈ s.getLast?, isSpace u = false) : trim s = s := by
  have hdrop : ∀ t : JsString, (∀ u ∈ t.head?, isSpace u = false) → t.dropWhile isSpace = t := by
    intro t ht
    cases t with
    | nil => rfl
    | cons u t => rw [List.dropWhile_cons_of_neg (by simp [ht u rfl])]
  rw [trim, hdrop s hhead, hdrop s.reverse (by rwa [List.head?_reverse]), List.reverse_reverse]

/-- The code units of an ASCII constant. -/
def ascii (s : String) : JsString := (utf8 s).map fun b => UInt16.ofNat b.toNat

end Lib.TextDecoder
