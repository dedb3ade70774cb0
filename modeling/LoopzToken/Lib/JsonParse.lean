import LoopzToken.Lib.Json

/-!
# Lib.JsonParse

Reading a JSON text. The parser is a machine that takes one character at a time,
with the arrays and objects still open on a stack, so every text is read in as
many steps as it has characters. It accepts exactly the grammar of JSON: no
trailing commas, no leading zeros, no control characters in strings, white space
only between tokens.

Strings become UTF-16 code units. A raw character outside the basic plane is two
of them, and so are two `\u` escapes that name the two halves.
-/

namespace Lib.JsonParse

/-! ### Code units -/

/-- The code units of a character. -/
def charUnits (c : Char) : JsonText :=
  let n := c.toNat
  if n < 0x10000 then [UInt16.ofNat n]
  else [UInt16.ofNat (0xD800 + (n - 0x10000) / 0x400), UInt16.ofNat (0xDC00 + (n - 0x10000) % 0x400)]

/-- The code units of a text. -/
def utf16 (s : String) : JsonText := s.toList.flatMap charUnits

/-- The value of a hexadecimal digit. -/
def hexDigit? (c : Char) : Option ℕ :=
  if '0' ≤ c ∧ c ≤ '9' then some (c.toNat - 48)
  else if 'a' ≤ c ∧ c ≤ 'f' then some (c.toNat - 87)
  else if 'A' ≤ c ∧ c ≤ 'F' then some (c.toNat - 55)
  else none

def isSpace (c : Char) : Bool := c = ' ' || c = '\t' || c = '\n' || c = '\r'

def isDigit (c : Char) : Bool := '0' ≤ c && c ≤ '9'

/-! ### The machine -/

/-- An array or an object that is still open, with what it holds so far, the newest
first. A `member` waits for the value of its key. -/
inductive Frame
  | array (items : List Json)
  | object (members : List (JsonText × Json))
  | member (members : List (JsonText × Json)) (key : JsonText)

/-- How much of a number was read. -/
inductive NumberState
  | minus
  | zero
  | digits
  | point
  | fraction
  | exp
  | expSign
  | expDigits
  deriving DecidableEq

/-- What the next character may be. Code units and lexemes are kept newest first. -/
inductive Mode
  | value
  /-- After `[`: a value, or the end. -/
  | element
  /-- After `{`: a key, or the end. -/
  | firstKey
  | key
  | colon
  /-- After a value: a comma, or the end. -/
  | after
  | string (isKey : Bool) (units : JsonText)
  | escape (isKey : Bool) (units : JsonText)
  | unicode (isKey : Bool) (units : JsonText) (digits code : ℕ)
  | number (st : NumberState) (lexeme : List Char)
  | literal (rest : List Char) (value : Json)
  | done (value : Json)

structure State where
  stack : List Frame
  mode : Mode

/-- A value is complete. -/
def complete (stack : List Frame) (value : Json) : Option State :=
  match stack with
  | [] => some ⟨[], .done value⟩
  | .array items :: stack => some ⟨.array (value :: items) :: stack, .after⟩
  | .member members key :: stack => some ⟨.object ((key, value) :: members) :: stack, .after⟩
  | .object _ :: _ => none

/-- The innermost array or object ends. -/
def close (stack : List Frame) (c : Char) : Option State :=
  match stack with
  | .array items :: stack => if c = ']' then complete stack (.array items.reverse) else none
  | .object members :: stack => if c = '}' then complete stack (.object members.reverse) else none
  | _ => none

/-- The first character of a value. -/
def start (stack : List Frame) (c : Char) : Option State :=
  if c = '[' then some ⟨.array [] :: stack, .element⟩
  else if c = '\x7b' then some ⟨.object [] :: stack, .firstKey⟩
  else if c = '"' then some ⟨stack, .string false []⟩
  else if c = 't' then some ⟨stack, .literal ['r', 'u', 'e'] (.bool true)⟩
  else if c = 'f' then some ⟨stack, .literal ['a', 'l', 's', 'e'] (.bool false)⟩
  else if c = 'n' then some ⟨stack, .literal ['u', 'l', 'l'] .null⟩
  else if c = '-' then some ⟨stack, .number .minus [c]⟩
  else if c = '0' then some ⟨stack, .number .zero [c]⟩
  else if isDigit c then some ⟨stack, .number .digits [c]⟩
  else none

/-- The character continues the number. -/
def NumberState.next (st : NumberState) (c : Char) : Option NumberState :=
  match st with
  | .minus => if c = '0' then some .zero else if isDigit c then some .digits else none
  | .zero => if c = '.' then some .point else if c = 'e' || c = 'E' then some .exp else none
  | .digits =>
      if isDigit c then some .digits else if c = '.' then some .point
      else if c = 'e' || c = 'E' then some .exp else none
  | .point => if isDigit c then some .fraction else none
  | .fraction =>
      if isDigit c then some .fraction else if c = 'e' || c = 'E' then some .exp else none
  | .exp =>
      if isDigit c then some .expDigits else if c = '+' || c = '-' then some .expSign else none
  | .expSign => if isDigit c then some .expDigits else none
  | .expDigits => if isDigit c then some .expDigits else none

/-- The number may end here. -/
def NumberState.final : NumberState → Bool
  | .zero => true
  | .digits => true
  | .fraction => true
  | .expDigits => true
  | _ => false

/-- After a value. -/
def stepAfter (st : State) (c : Char) : Option State :=
  match st.mode with
  | .after =>
      if isSpace c then some st
      else if c = ',' then
        match st.stack with
        | .array _ :: _ => some ⟨st.stack, .value⟩
        | .object _ :: _ => some ⟨st.stack, .key⟩
        | _ => none
      else close st.stack c
  | .done _ => if isSpace c then some st else none
  | _ => none

/-- The character after a backslash. -/
def escapeUnit (c : Char) : Option UInt16 :=
  if c = '"' || c = '\\' || c = '/' then some (UInt16.ofNat c.toNat)
  else if c = 'b' then some 8
  else if c = 'f' then some 12
  else if c = 'n' then some 10
  else if c = 'r' then some 13
  else if c = 't' then some 9
  else none

/-- One character. -/
def step (st : State) (c : Char) : Option State :=
  match st.mode with
  | .value => if isSpace c then some st else start st.stack c
  | .element =>
      if isSpace c then some st else if c = ']' then close st.stack c else start st.stack c
  | .firstKey =>
      if isSpace c then some st
      else if c = '"' then some ⟨st.stack, .string true []⟩
      else close st.stack c
  | .key =>
      if isSpace c then some st
      else if c = '"' then some ⟨st.stack, .string true []⟩ else none
  | .colon =>
      if isSpace c then some st else if c = ':' then some ⟨st.stack, .value⟩ else none
  | .string isKey units =>
      if c = '"' then
        if isKey then
          match st.stack with
          | .object members :: stack => some ⟨.member members units.reverse :: stack, .colon⟩
          | _ => none
        else complete st.stack (.string units.reverse)
      else if c = '\\' then some ⟨st.stack, .escape isKey units⟩
      else if c.toNat < 32 then none
      else some ⟨st.stack, .string isKey ((charUnits c).reverse ++ units)⟩
  | .escape isKey units =>
      if c = 'u' then some ⟨st.stack, .unicode isKey units 0 0⟩
      else (escapeUnit c).map fun u => ⟨st.stack, .string isKey (u :: units)⟩
  | .unicode isKey units digits code =>
      (hexDigit? c).map fun d =>
        if digits = 3 then ⟨st.stack, .string isKey (UInt16.ofNat (16 * code + d) :: units)⟩
        else ⟨st.stack, .unicode isKey units (digits + 1) (16 * code + d)⟩
  | .number num lexeme =>
      -- a number has no end of its own: the next token ends it
      match num.next c with
      | some num' => some ⟨st.stack, .number num' (c :: lexeme)⟩
      | none =>
          if num.final then
            (complete st.stack (.number lexeme.reverse)).bind fun st => stepAfter st c
          else none
  | .literal rest value =>
      match rest with
      | [] => none
      | [d] => if c = d then complete st.stack value else none
      | d :: rest => if c = d then some ⟨st.stack, .literal rest value⟩ else none
  | .after => stepAfter st c
  | .done _ => stepAfter st c

/-- The end of the text. -/
def finish (st : State) : Option Json :=
  match st.stack, st.mode with
  | [], .done value => some value
  | [], .number num lexeme => if num.final then some (.number lexeme.reverse) else none
  | _, _ => none

/-- `JSON.parse`, and the syntax check of `json.Unmarshal`. -/
def parse (text : List Char) : Option Json :=
  (text.foldlM step ⟨[], .value⟩).bind finish

example : (parse "[01]".toList).isNone = true := by decide

example : (parse "[-0.5e+7, null ]".toList).isSome = true := by decide

end Lib.JsonParse
