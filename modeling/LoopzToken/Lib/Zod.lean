import LoopzToken.Lib.JsonParse

/-!
# Lib.Zod

Schemas of the `zod` library for flat objects, applied to what `JSON.parse` returns.
Keys are compared exactly, of several members with one key the last counts, unknown
keys are dropped, and every key of the schema must be there with a value that
passes. The issues that a failed parse reports are left out.
-/

namespace Lib.Zod

open JsonParse

/-- A check on a string. -/
inductive Check
  /-- `.min(n)`, in code units. -/
  | min (n : ℕ)
  /-- `.regex(/^\d+$/)`. -/
  | digits
  deriving DecidableEq, Repr

def Check.passes : Check → JsonText → Bool
  | .min n, text => n ≤ text.length
  | .digits, text => text ≠ [] && text.all fun u => 48 ≤ u.toNat && u.toNat ≤ 57

theorem Check.digits_passes {text : JsonText} : Check.digits.passes text = true ↔
    text ≠ [] ∧ ∀ u ∈ text, 48 ≤ u.toNat ∧ u.toNat ≤ 57 := by
  simp [Check.passes]

/-- `z.string()` with its checks, `z.enum` and `z.boolean()`. -/
inductive Schema
  | string (checks : List Check)
  | enum (values : List String)
  | boolean
  deriving DecidableEq, Repr

/-- The value that a schema returns for a property; `undefined` is `none`. -/
def Schema.parse : Schema → Option Json → Option FieldValue
  | .string checks, some (.string text) =>
      if checks.all fun c => c.passes text then some (.text text) else none
  | .enum values, some (.string text) =>
      if values.any fun v => utf16 v = text then some (.text text) else none
  | .boolean, some (.bool b) => some (.flag b)
  | _, _ => none

/-- What a property must be, for each kind of schema. -/
theorem Schema.string_isSome {checks : List Check} {doc : Option Json} :
    ((Schema.string checks).parse doc).isSome = true ↔
      ∃ text, doc = some (.string text) ∧ ∀ c ∈ checks, c.passes text = true := by
  unfold Schema.parse
  split <;> simp_all

theorem Schema.enum_isSome {values : List String} {doc : Option Json} :
    ((Schema.enum values).parse doc).isSome = true ↔
      ∃ text, doc = some (.string text) ∧ text ∈ values.map utf16 := by
  unfold Schema.parse
  split <;> simp_all

theorem Schema.boolean_isSome {doc : Option Json} :
    (Schema.boolean.parse doc).isSome = true ↔ ∃ b, doc = some (.bool b) := by
  unfold Schema.parse
  split <;> simp_all

/-- `z.object`: its properties, in order. -/
abbrev ObjectSchema := List (String × Schema)

/-- The property of the object that `JSON.parse` makes of the members. -/
def property (key : String) (members : List (JsonText × Json)) : Option Json :=
  ((members.filter fun m => m.1 = utf16 key).getLast?).map (·.2)

/-- Every property is there and passes. -/
def ObjectSchema.Valid (schema : ObjectSchema) (members : List (JsonText × Json)) : Prop :=
  ∀ p ∈ schema, (p.2.parse (property p.1 members)).isSome = true

instance (schema : ObjectSchema) (members : List (JsonText × Json)) :
    Decidable (schema.Valid members) := inferInstanceAs (Decidable (∀ p ∈ schema, _))

/-- `schema.parse`. -/
def ObjectSchema.parse (schema : ObjectSchema) : Json → Option (List (String × FieldValue))
  | .object members =>
      schema.mapM fun p => (p.2.parse (property p.1 members)).map (p.1, ·)
  | _ => none

theorem mapM_eq_some_iff {α β : Type} {f : α → Option β} {l : List α} {r : List β} :
    l.mapM f = some r ↔ l.map f = r.map some := by
  induction l generalizing r with
  | nil => cases r <;> simp
  | cons a l ih =>
      cases r with
      | nil => simp [Option.bind_eq_some_iff]
      | cons b r =>
          simp only [List.mapM_cons, Option.bind_eq_bind, Option.bind_eq_some_iff, Option.pure_def,
            Option.some.injEq, List.map_cons, List.cons.injEq]
          constructor
          · intro h
            obtain ⟨b', hb, r', hr, rfl, rfl⟩ := h
            exact ⟨hb, ih.mp hr⟩
          · intro h
            obtain ⟨hb, hr⟩ := h
            exact ⟨b, hb, r, ih.mpr hr, rfl, rfl⟩

theorem mapM_isSome_iff {α β : Type} {f : α → Option β} {l : List α} :
    (∃ r, l.mapM f = some r) ↔ ∀ a ∈ l, (f a).isSome = true := by
  simp only [mapM_eq_some_iff]
  constructor
  · rintro ⟨r, hr⟩ a ha
    have hmem : f a ∈ r.map some := hr ▸ List.mem_map_of_mem ha
    obtain ⟨b, -, hb⟩ := List.mem_map.mp hmem
    rw [← hb, Option.isSome_some]
  · intro h
    induction l with
    | nil => exact ⟨[], rfl⟩
    | cons a l ih =>
        obtain ⟨ha, hl⟩ := List.forall_mem_cons.mp h
        obtain ⟨b, hb⟩ := Option.isSome_iff_exists.mp ha
        obtain ⟨r, hr⟩ := ih hl
        exact ⟨b :: r, by rw [List.map_cons, List.map_cons, hb, hr]⟩

/-- Exactly the valid objects are parsed. -/
theorem ObjectSchema.parse_isSome {schema : ObjectSchema} {members : List (JsonText × Json)} :
    (∃ values, schema.parse (.object members) = some values) ↔ schema.Valid members := by
  simp only [ObjectSchema.parse, mapM_isSome_iff, Option.isSome_map, ObjectSchema.Valid]

end Lib.Zod
