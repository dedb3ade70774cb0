import LoopzToken.Lib.Bytes
import LoopzToken.Lib.JsonParse

/-!
# Lib.GoJson

`json.Unmarshal` of Go's `encoding/json`, into a struct whose fields are strings and
booleans. Its rules are lenient: keys are compared without regard to case (and to
the two characters outside ASCII that fold to an ASCII letter), unknown keys are
ignored, `null` and absent members leave a field as it is, and a member overwrites
what an earlier one stored. A value of the wrong type makes the call fail, wherever
it stands.

`unmarshal_object` says all of this without the loop.
-/

namespace Lib.GoJson

open JsonParse

/-! ### Texts -/

/-- A lone half of a surrogate pair becomes U+FFFD. -/
def toWellFormed : JsonText → JsonText
  | [] => []
  | [u] => if 0xD800 ≤ u.toNat ∧ u.toNat < 0xE000 then [0xFFFD] else [u]
  | u :: v :: text =>
      if 0xD800 ≤ u.toNat ∧ u.toNat < 0xDC00 ∧ 0xDC00 ≤ v.toNat ∧ v.toNat < 0xE000 then
        u :: v :: toWellFormed text
      else (if 0xD800 ≤ u.toNat ∧ u.toNat < 0xE000 then 0xFFFD else u) :: toWellFormed (v :: text)

/-- `foldRune`, where it gives an ASCII character: lower case letters, the Kelvin sign
and the long s. -/
def foldUnit (u : UInt16) : UInt16 :=
  if 97 ≤ u.toNat ∧ u.toNat ≤ 122 then u - 32
  else if u = 0x212A then 75
  else if u = 0x017F then 83
  else u

/-- `foldName`. -/
def foldName (name : JsonText) : JsonText := name.map foldUnit

/-! ### Structs -/

inductive Kind
  | string
  | bool
  deriving DecidableEq, Repr

/-- A field: its name in the struct tag, and its type. -/
structure Field where
  name : String
  kind : Kind
  deriving DecidableEq, Repr

abbrev Struct := List Field

def Kind.zero : Kind → FieldValue
  | .string => .text []
  | .bool => .flag false

/-- Store a document in a field that holds `old`; `none` is a type error. -/
def Kind.store (k : Kind) (old : FieldValue) : Json → Option FieldValue
  | .null => some old
  | .string text => if k = .string then some (.text (toWellFormed text)) else none
  | .bool b => if k = .bool then some (.flag b) else none
  | _ => none

/-- The key names the field. -/
def Field.names (f : Field) (key : JsonText) : Bool := foldName key = foldName (utf16 f.name)

/-- What was decoded so far, and whether a type error was seen. -/
structure Decoder where
  values : List (Field × FieldValue)
  failed : Bool

def Decoder.init (fields : Struct) : Decoder where
  values := fields.map fun f => (f, f.kind.zero)
  failed := false

/-- One member of an object. A type error is kept for the end. -/
def Decoder.member (d : Decoder) (m : JsonText × Json) : Decoder where
  values := d.values.map fun p =>
    if p.1.names m.1 then (p.1, (p.1.kind.store p.2 m.2).getD p.2) else p
  failed := d.failed || d.values.any fun p => p.1.names m.1 && (p.1.kind.store p.2 m.2).isNone

/-- `maxNestingDepth`. -/
def maxNestingDepth : ℕ := 10000

/-- `json.Unmarshal`, after the syntax check. -/
def unmarshal (fields : Struct) (doc : Json) : Option (List (String × FieldValue)) :=
  if maxNestingDepth < doc.depth then none
  else
    match doc with
    | .null => some (fields.map fun f => (f.name, f.kind.zero))
    | .object members =>
        let d := members.foldl Decoder.member (.init fields)
        if d.failed then none else some (d.values.map fun p => (p.1.name, p.2))
    | _ => none

/-! ### Without the loop -/

def isNull : Json → Bool
  | .null => true
  | _ => false

/-- The document may be stored in a field of this type. -/
def Kind.fits (k : Kind) : Json → Bool
  | .null => true
  | .string _ => k = .string
  | .bool _ => k = .bool
  | _ => false

/-- The document, with its text as Go reads it. -/
def wellFormed : Json → Json
  | .string text => .string (toWellFormed text)
  | doc => doc

/-- The value of a text or a boolean. -/
def valueOf (k : Kind) : Json → FieldValue
  | .string text => .text text
  | .bool b => .flag b
  | _ => k.zero

/-- The last member that names the field and is not `null`. -/
def Field.last (f : Field) (members : List (JsonText × Json)) : Option Json :=
  ((members.filter fun m => f.names m.1 && !isNull m.2).getLast?).map (·.2)

/-- What ends up in the field. -/
def Field.read (f : Field) (members : List (JsonText × Json)) : FieldValue :=
  ((f.last members).map fun doc => valueOf f.kind (wellFormed doc)).getD f.kind.zero

/-- No member that names the field has a wrong type. -/
def Field.Typed (f : Field) (members : List (JsonText × Json)) : Prop :=
  ∀ m ∈ members, f.names m.1 = true → f.kind.fits m.2 = true

instance (f : Field) (members : List (JsonText × Json)) : Decidable (f.Typed members) :=
  inferInstanceAs (Decidable (∀ m ∈ members, _))

/-- The object may be decoded: it is not nested too deep, and every member that names
a field is `null` or has its type. -/
def Decodable (fields : Struct) (members : List (JsonText × Json)) : Prop :=
  (Json.object members).depth ≤ maxNestingDepth ∧ ∀ f ∈ fields, f.Typed members

instance (fields : Struct) (members : List (JsonText × Json)) :
    Decidable (Decodable fields members) := inferInstanceAs (Decidable (_ ∧ _))

/-- The struct, after the object was decoded. -/
def readFields (fields : Struct) (members : List (JsonText × Json)) :
    List (String × FieldValue) :=
  fields.map fun f => (f.name, f.read members)

theorem Kind.store_isNone (k : Kind) (old : FieldValue) (doc : Json) :
    (k.store old doc).isNone = !k.fits doc := by
  cases doc with
  | string | bool => cases k <;> rfl
  | _ => rfl

/-- What one member leaves in a field. -/
def Field.step (f : Field) (old : FieldValue) (m : JsonText × Json) : FieldValue :=
  if f.names m.1 then (f.kind.store old m.2).getD old else old

/-- The loop, field by field. -/
theorem foldl_member_values (members : List (JsonText × Json)) (d : Decoder) :
    (members.foldl Decoder.member d).values =
      d.values.map fun p => (p.1, members.foldl p.1.step p.2) := by
  induction members generalizing d with
  | nil => simp
  | cons m members ih =>
      rw [List.foldl_cons, ih, Decoder.member, List.map_map]
      refine List.map_congr_left fun p _ => ?_
      rw [Function.comp_apply, List.foldl_cons, Field.step]
      split <;> rfl

theorem foldl_member_failed (members : List (JsonText × Json)) (d : Decoder) :
    (members.foldl Decoder.member d).failed = true ↔
      d.failed = true ∨ ∃ p ∈ d.values, ¬ p.1.Typed members := by
  induction members generalizing d with
  | nil => simp [Field.Typed]
  | cons m members ih =>
      have hstep : (d.member m).failed = true ↔
          d.failed = true ∨ ∃ p ∈ d.values, p.1.names m.1 = true ∧ p.1.kind.fits m.2 = false := by
        simp [Decoder.member, Kind.store_isNone]
      have hvalues : (∃ p ∈ (d.member m).values, ¬ p.1.Typed members) ↔
          ∃ p ∈ d.values, ¬ p.1.Typed members := by
        simp only [Decoder.member, List.mem_map]
        constructor
        · intro h
          obtain ⟨_, ⟨p, hp, rfl⟩, hno⟩ := h
          refine ⟨p, hp, ?_⟩
          split at hno <;> exact hno
        · intro h
          obtain ⟨p, hp, hno⟩ := h
          refine ⟨_, ⟨p, hp, rfl⟩, ?_⟩
          split <;> exact hno
      have hcons : ∀ f : Field, ¬ f.Typed (m :: members) ↔
          (f.names m.1 = true ∧ f.kind.fits m.2 = false) ∨ ¬ f.Typed members := by
        intro f
        simp only [Field.Typed, List.forall_mem_cons, not_and_or, Classical.not_imp,
          Bool.not_eq_true]
      rw [List.foldl_cons, ih, hstep, hvalues, or_assoc]
      simp only [hcons, and_or_left, exists_or]

/-- One more member in front, when it is stored and when it is not. -/
theorem Field.last_cons (f : Field) (m : JsonText × Json) (members : List (JsonText × Json)) :
    f.last (m :: members) =
      if f.names m.1 && !isNull m.2 then some ((f.last members).getD m.2) else f.last members := by
  unfold Field.last
  rw [List.filter_cons]
  split
  · rw [List.getLast?_cons, Option.map_some]
    cases ((members.filter fun m => f.names m.1 && !isNull m.2).getLast?) <;> rfl
  · rfl

/-- Storing a document of the right type, other than `null`. -/
theorem Kind.store_of_fits {k : Kind} {doc : Json} (hfit : k.fits doc = true)
    (hnull : isNull doc = false) (old : FieldValue) :
    k.store old doc = some (valueOf k (wellFormed doc)) := by
  cases doc with
  | null => cases hnull
  | string text | bool b => cases k <;> first | rfl | cases hfit
  | number | array | object => cases hfit

/-- What a decodable field reads has the field's type. -/
theorem Field.last_fits {f : Field} {members : List (JsonText × Json)} (ht : f.Typed members)
    {doc : Json} (h : f.last members = some doc) :
    f.kind.fits doc = true ∧ isNull doc = false := by
  obtain ⟨m, hm, rfl⟩ := Option.map_eq_some_iff.mp h
  have hmem := List.mem_filter.mp (List.mem_of_getLast? hm)
  simp only [Bool.and_eq_true, Bool.not_eq_true'] at hmem
  exact ⟨ht m hmem.1 hmem.2.1, hmem.2.2⟩

/-- A member that names the field and is not `null` leaves something to read. -/
theorem Field.exists_last {f : Field} {members : List (JsonText × Json)} {m : JsonText × Json}
    (hm : m ∈ members) (hname : f.names m.1 = true) (hnull : isNull m.2 = false) :
    ∃ doc, f.last members = some doc := by
  have hmem : m ∈ members.filter fun m => f.names m.1 && !isNull m.2 :=
    List.mem_filter.mpr ⟨hm, by simp [hname, hnull]⟩
  rw [Field.last, List.getLast?_eq_some_getLast (List.ne_nil_of_mem hmem), Option.map_some]
  exact ⟨_, rfl⟩

theorem fits_wellFormed (k : Kind) (doc : Json) : k.fits (wellFormed doc) = k.fits doc := by
  cases doc <;> rfl

theorem isNull_wellFormed (doc : Json) : isNull (wellFormed doc) = isNull doc := by
  cases doc <;> rfl

/-- Documents of one type, other than `null`, differ in their values. -/
theorem valueOf_inj {k : Kind} {doc doc' : Json} (h : k.fits doc = true)
    (hn : isNull doc = false) (h' : k.fits doc' = true) (hn' : isNull doc' = false) :
    valueOf k doc = valueOf k doc' ↔ doc = doc' := by
  refine ⟨fun heq => ?_, fun heq => heq ▸ rfl⟩
  cases doc with
  | null => cases hn
  | number | array | object => cases h
  | string text =>
      cases doc' with
      | string text' => rw [FieldValue.text.inj heq]
      | bool => cases heq
      | null => cases hn'
      | number | array | object => cases h'
  | bool b =>
      cases doc' with
      | bool b' => rw [FieldValue.flag.inj heq]
      | string => cases heq
      | null => cases hn'
      | number | array | object => cases h'

/-- A field ends up with the last value that was stored in it. -/
theorem Field.foldl_step {f : Field} {members : List (JsonText × Json)}
    (ht : f.Typed members) (v : FieldValue) :
    members.foldl f.step v =
      ((f.last members).map fun doc => valueOf f.kind (wellFormed doc)).getD v := by
  induction members generalizing v with
  | nil => rfl
  | cons m members ih =>
      obtain ⟨hm, ht⟩ := List.forall_mem_cons.mp ht
      rw [List.foldl_cons, ih ht, Field.last_cons, Field.step]
      cases hname : f.names m.1 with
      | false => simp
      | true =>
          cases hnull : isNull m.2 with
          | true =>
              -- `null` is not stored, and is not a last value
              have hdoc : m.2 = .null := by
                cases hd : m.2 with
                | null => rfl
                | _ => rw [hd] at hnull; cases hnull
              simp [hdoc, Kind.store]
          | false =>
              rw [if_pos rfl, Kind.store_of_fits (hm hname) hnull]
              cases f.last members <;> simp

/-- **What `json.Unmarshal` makes of an object.** -/
theorem unmarshal_object (fields : Struct) (members : List (JsonText × Json)) :
    unmarshal fields (.object members) =
      if Decodable fields members then some (readFields fields members) else none := by
  have hfailed : (members.foldl Decoder.member (.init fields)).failed = true ↔
      ¬ ∀ f ∈ fields, f.Typed members := by
    rw [foldl_member_failed]
    simp [Decoder.init]
  rw [unmarshal]
  by_cases hdepth : (Json.object members).depth ≤ maxNestingDepth
  · rw [if_neg (Nat.not_lt.mpr hdepth)]
    by_cases ht : ∀ f ∈ fields, f.Typed members
    · have hok : (members.foldl Decoder.member (.init fields)).failed = false :=
        Bool.eq_false_iff.mpr fun h => hfailed.mp h ht
      have hvalues : (members.foldl Decoder.member (.init fields)).values.map
          (fun p => (p.1.name, p.2)) = readFields fields members := by
        rw [foldl_member_values, Decoder.init, List.map_map, List.map_map]
        refine List.map_congr_left fun f hf => ?_
        rw [Function.comp_apply, Function.comp_apply, Field.foldl_step (ht f hf)]
        rfl
      have hd : Decodable fields members := ⟨hdepth, ht⟩
      simp only [hok, Bool.false_eq_true, if_false, hvalues, if_pos hd]
    · have hd : ¬ Decodable fields members := fun h => ht h.2
      simp only [hfailed.mpr ht, if_true, if_neg hd]
  · have hd : ¬ Decodable fields members := fun h => hdepth h.1
    rw [if_pos (Nat.lt_of_not_le hdepth), if_neg hd]

/-! ### From bytes, into a value of any type -/

/-- `utf8.DecodeRune`: the code point in front, and how many bytes it takes. A byte that
starts no code point is U+FFFD. -/
def decodeRune (s : Bytes) : ℕ × ℕ :=
  let c := fun i : ℕ => ((s[i]?).map UInt8.toNat).getD 0
  let tail := fun i : ℕ => 0x80 ≤ c i && c i ≤ 0xBF
  if c 0 < 0x80 then (c 0, 1)
  else if 0xC2 ≤ c 0 && c 0 ≤ 0xDF && tail 1 then (c 0 % 0x20 * 0x40 + c 1 % 0x40, 2)
  else if 0xE0 ≤ c 0 && c 0 ≤ 0xEF && (if c 0 = 0xE0 then 0xA0 else 0x80) ≤ c 1 &&
      c 1 ≤ (if c 0 = 0xED then 0x9F else 0xBF) && tail 2 then
    (c 0 % 0x10 * 0x1000 + c 1 % 0x40 * 0x40 + c 2 % 0x40, 3)
  else if 0xF0 ≤ c 0 && c 0 ≤ 0xF4 && (if c 0 = 0xF0 then 0x90 else 0x80) ≤ c 1 &&
      c 1 ≤ (if c 0 = 0xF4 then 0x8F else 0xBF) && tail 2 && tail 3 then
    (c 0 % 0x08 * 0x40000 + c 1 % 0x40 * 0x1000 + c 2 % 0x40 * 0x40 + c 3 % 0x40, 4)
  else (0xFFFD, 1)

/-- The characters of a byte string, after some bytes of the one before. -/
def runes : ℕ → Bytes → List Char
  | _, [] => []
  | skip + 1, _ :: s => runes skip s
  | 0, b :: s => Char.ofNat (decodeRune (b :: s)).1 :: runes ((decodeRune (b :: s)).2 - 1) s

example : runes 0 [0xE2, 0x82, 0xAC, 0xE2, 0x82] = ['€', '\uFFFD', '\uFFFD'] := by decide

/-- A type that documents are decoded into: what a document makes of a value, and the
error, if the document is of another type. -/
abbrev Target (β : Type*) := Json → β → β × Option String

inductive UnmarshalError
  | syntaxError
  | exceededMaxDepth
  | typeError (message : String)
  deriving DecidableEq, Repr

/-- `json.Unmarshal(data, out)`, with the value that is left in `out`. The syntax of the
whole text is checked before anything is stored. -/
def unmarshalInto {β : Type*} (T : Target β) (data : Bytes) (out : β) :
    β × Option UnmarshalError :=
  match JsonParse.parse (runes 0 data) with
  | none => (out, some .syntaxError)
  | some doc =>
      if maxNestingDepth < doc.depth then (out, some .exceededMaxDepth)
      else ((T doc out).1, (T doc out).2.map .typeError)

end Lib.GoJson
