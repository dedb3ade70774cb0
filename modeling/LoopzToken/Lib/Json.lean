import Mathlib.Data.List.Basic

/-!
# Lib.Json

JSON documents as syntax trees. Nothing is resolved that two readers of one
document may resolve differently: the members of an object keep their order and
their duplicates, a string is the UTF-16 code units its text and escapes denote
(an escape may name a lone surrogate), a number is its text.
-/

namespace Lib

/-- The code units of a JSON string. -/
abbrev JsonText := List UInt16

/-- A JSON document. -/
inductive Json
  | null
  | bool (b : Bool)
  | number (lexeme : List Char)
  | string (text : JsonText)
  | array (items : List Json)
  | object (members : List (JsonText × Json))

mutual

/-- How deep arrays and objects are nested. -/
def Json.depth : Json → ℕ
  | .array items => depthItems items + 1
  | .object members => depthMembers members + 1
  | _ => 0

def depthItems : List Json → ℕ
  | [] => 0
  | item :: items => max item.depth (depthItems items)

def depthMembers : List (JsonText × Json) → ℕ
  | [] => 0
  | (_, value) :: members => max value.depth (depthMembers members)

end

/-- A value of a flat record that was read from a document. -/
inductive FieldValue
  | text (s : JsonText)
  | flag (b : Bool)
  deriving DecidableEq, Repr

end Lib
