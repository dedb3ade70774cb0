import Mathlib.Data.List.Nodup
import LoopzToken.Lib.GoMarshal
import LoopzToken.Lib.Zod

/-!
# Lib.GoRecord

Flat structs on their way through JSON: marshalled by Go, and read by Go into a struct
with the same tags, or by a schema with the same keys.

If no two tags are equal up to case, every field is read from its own member
(`last_members`, `property_members`), and the struct comes back with the values that
were sent (`unmarshal_record`).
-/

namespace Lib.GoJson

open JsonParse

/-- The fields of a struct with their values. -/
abbrev Record := List (Field × Value)

def Record.fields (r : Record) : Struct := r.map (·.1)

/-- The struct that is marshalled. -/
def Record.value (r : Record) : Value := .struct (r.map fun p => (utf8 p.1.name, p.2))

/-- The members of its document. -/
def Record.members (r : Record) : List (JsonText × Json) :=
  r.map fun p => (utf16 p.1.name, p.2.doc)

/-- What a field of this type is set to. -/
def Value.fieldValue : Value → FieldValue
  | .string s => .text (textOf s)
  | .bool b => .flag b
  | .struct _ => .text []

def Record.values (r : Record) : List (String × FieldValue) :=
  r.map fun p => (p.1.name, p.2.fieldValue)

/-- The value has the type of the field. -/
def Value.HasKind : Value → Kind → Prop
  | .string _, .string => True
  | .bool _, .bool => True
  | _, _ => False

/-- The tags are told apart without regard to case, and every value has the type of its
field. -/
structure Record.Ok (r : Record) : Prop where
  tags : ∀ f ∈ r.fields, textOf (utf8 f.name) = utf16 f.name
  distinct : (r.fields.map fun f => foldName (utf16 f.name)).Nodup
  kinds : ∀ p ∈ r, p.2.HasKind p.1.kind

/-! ### Texts -/

theorem toWellFormed_cons_of_not {u : UInt16} (hu : ¬ (0xD800 ≤ u.toNat ∧ u.toNat < 0xE000))
    (text : JsonText) : toWellFormed (u :: text) = u :: toWellFormed text := by
  cases text with
  | nil => simp [toWellFormed, hu]
  | cons v text =>
      rw [toWellFormed, if_neg (fun h => hu ⟨h.1, by omega⟩), if_neg hu]

/-- Texts of characters are well formed. -/
theorem toWellFormed_charUnits (cs : List Char) :
    toWellFormed (cs.flatMap charUnits) = cs.flatMap charUnits := by
  induction cs with
  | nil => rfl
  | cons c cs ih =>
      have hc : c.toNat < 0xD800 ∨ 0xDFFF < c.toNat ∧ c.toNat < 0x110000 := c.valid
      have hunit : ∀ n < 0x10000, (UInt16.ofNat n).toNat = n := fun n hn => by
        rw [UInt16.toNat_ofNat']
        exact Nat.mod_eq_of_lt hn
      rw [List.flatMap_cons, charUnits]
      split
      · rename_i hlt
        rw [List.singleton_append, toWellFormed_cons_of_not (by rw [hunit _ hlt]; omega), ih]
      · rw [List.cons_append, List.singleton_append, toWellFormed, if_pos, ih]
        rw [hunit _ (by omega), hunit _ (by omega)]
        omega

theorem toWellFormed_textOf (s : Bytes) : toWellFormed (textOf s) = textOf s :=
  toWellFormed_charUnits _

/-! ### One field -/

theorem filter_of_nodup {α β : Type} [DecidableEq β] {f : α → β} {l : List α}
    (h : (l.map f).Nodup) {a : α} (ha : a ∈ l) : l.filter (fun x => f x = f a) = [a] := by
  induction l with
  | nil => exact absurd ha List.not_mem_nil
  | cons x l ih =>
      obtain ⟨hx, hl⟩ := List.nodup_cons.mp h
      rcases List.mem_cons.mp ha with rfl | ha
      · have hnone : l.filter (fun x => f x = f a) = [] := by
          simp only [List.filter_eq_nil_iff, decide_eq_true_eq]
          exact fun y hy heq => hx (List.mem_map.mpr ⟨y, hy, heq⟩)
        rw [List.filter_cons_of_pos (by simp), hnone]
      · have hne : ¬ f x = f a := fun heq => hx (List.mem_map.mpr ⟨a, ha, heq.symm⟩)
        rw [List.filter_cons_of_neg (by simpa using hne), ih hl ha]

variable {r : Record} {p : Field × Value}

theorem Value.HasKind.fits {v : Value} {k : Kind} (h : v.HasKind k) :
    k.fits v.doc = true ∧ isNull v.doc = false := by
  cases v <;> cases k <;> first | exact ⟨rfl, rfl⟩ | exact absurd h id

theorem Value.HasKind.valueOf {v : Value} {k : Kind} (h : v.HasKind k) :
    valueOf k (wellFormed v.doc) = v.fieldValue := by
  cases v with
  | string s => exact congrArg FieldValue.text (toWellFormed_textOf s)
  | bool b => rfl
  | struct fields => cases k <;> exact absurd h id

theorem Record.Ok.nodup (h : r.Ok) : (r.map fun p => foldName (utf16 p.1.name)).Nodup := by
  have := h.distinct
  rwa [Record.fields, List.map_map] at this

/-- The member that a field is read from, without regard to case. -/
theorem last_members (h : r.Ok) (hp : p ∈ r) : p.1.last r.members = some p.2.doc := by
  have hfilter : r.members.filter (fun m => p.1.names m.1 && !isNull m.2) =
      [(utf16 p.1.name, p.2.doc)] := by
    rw [Record.members, List.filter_map]
    have hsame : r.filter ((fun m : JsonText × Json => p.1.names m.1 && !isNull m.2) ∘
        fun p => (utf16 p.1.name, p.2.doc)) =
          r.filter fun q => foldName (utf16 q.1.name) = foldName (utf16 p.1.name) := by
      refine List.filter_congr fun q hq => ?_
      rw [Function.comp_apply, (h.kinds q hq).fits.2, Bool.not_false, Bool.and_true]
      rfl
    rw [hsame, filter_of_nodup h.nodup hp, List.map_singleton]
  rw [Field.last, hfilter]
  rfl

/-- The member that a key is read from. -/
theorem property_members (h : r.Ok) (hp : p ∈ r) :
    Zod.property p.1.name r.members = some p.2.doc := by
  have hexact : (r.map fun p => utf16 p.1.name).Nodup := by
    have := h.nodup
    rw [show (fun p : Field × Value => foldName (utf16 p.1.name)) =
      foldName ∘ fun p => utf16 p.1.name from rfl, ← List.map_map] at this
    exact List.Nodup.of_map _ this
  have hfilter : r.members.filter (fun m => m.1 = utf16 p.1.name) =
      [(utf16 p.1.name, p.2.doc)] := by
    rw [Record.members, List.filter_map]
    have hsame : r.filter ((fun m : JsonText × Json => decide (m.1 = utf16 p.1.name)) ∘
        fun p => (utf16 p.1.name, p.2.doc)) =
          r.filter fun q => utf16 q.1.name = utf16 p.1.name := rfl
    rw [hsame, filter_of_nodup hexact hp, List.map_singleton]
  rw [Zod.property, hfilter]
  rfl

/-! ### The record -/

theorem docFields_map (r : Record) : docFields (r.map fun p => (utf8 p.1.name, p.2)) =
    r.map fun p => (textOf (utf8 p.1.name), p.2.doc) := by
  induction r with
  | nil => rfl
  | cons p r ih => rw [List.map_cons, docFields, ih]; rfl

theorem doc_value (h : r.Ok) : r.value.doc = .object r.members := by
  rw [Record.value, Value.doc, docFields_map, Record.members]
  congr 1
  refine List.map_congr_left fun p hp => ?_
  rw [h.tags p.1 (List.mem_map_of_mem hp)]

theorem depthMembers_eq_zero {members : List (JsonText × Json)}
    (h : ∀ m ∈ members, m.2.depth = 0) : depthMembers members = 0 := by
  induction members with
  | nil => rfl
  | cons m members ih =>
      obtain ⟨hm, h⟩ := List.forall_mem_cons.mp h
      rw [depthMembers, hm, ih h]
      rfl

theorem decodable_members (h : r.Ok) : Decodable r.fields r.members := by
  refine ⟨?_, fun f hf m hm hname => ?_⟩
  · rw [Json.depth, depthMembers_eq_zero]
    · decide
    · intro m hm
      obtain ⟨p, hp, rfl⟩ := List.mem_map.mp hm
      have hk := h.kinds p hp
      cases hv : p.2 with
      | string | bool => rfl
      | struct => rw [hv] at hk; cases p.1.kind <;> exact absurd hk id
  · obtain ⟨p, hp, rfl⟩ := List.mem_map.mp hm
    obtain ⟨q, hq, rfl⟩ := List.mem_map.mp hf
    obtain rfl := List.inj_on_of_nodup_map h.nodup hp hq (of_decide_eq_true hname)
    exact (h.kinds p hp).fits.1

/-- **The round trip of a record.** -/
theorem unmarshal_record (h : r.Ok) : unmarshal r.fields r.value.doc = some r.values := by
  rw [doc_value h, unmarshal_object, if_pos (decodable_members h), readFields, Record.fields,
    List.map_map]
  congr 1
  refine List.map_congr_left fun p hp => ?_
  rw [Function.comp_apply, Field.read, last_members h hp, Option.map_some, Option.getD_some,
    (h.kinds p hp).valueOf]

/-! ### The record in a schema -/

/-- What a schema returns for a value is the value. -/
theorem parse_doc {s : Zod.Schema} {v : Value} {w : FieldValue}
    (h : s.parse (some v.doc) = some w) : w = v.fieldValue := by
  cases v with
  | struct fields => cases s <;> cases h
  | bool b => cases s <;> cases h; rfl
  | string text =>
      cases s with
      | boolean => cases h
      | string checks | enum names =>
          rw [Value.doc, Zod.Schema.parse] at h
          split at h
          · exact (Option.some.inj h).symm
          · cases h

/-- The key of the schema is the tag of the field. -/
def SameKey (p : String × Zod.Schema) (q : Field × Value) : Prop := p.1 = q.1.name

/-- The value of the field passes. -/
def Passes (p : String × Zod.Schema) (q : Field × Value) : Prop :=
  (p.2.parse (some q.2.doc)).isSome = true

/-- **The schema of a record** returns the record if every value passes, and refuses it
otherwise. -/
theorem parse_record {schema : Zod.ObjectSchema} (h : r.Ok)
    (hkeys : List.Forall₂ SameKey schema r) {values : List (String × FieldValue)} :
    schema.parse (.object r.members) = some values ↔
      values = r.values ∧ List.Forall₂ Passes schema r := by
  have hprop : ∀ q ∈ r, Zod.property q.1.name r.members = some q.2.doc :=
    fun q hq => property_members h hq
  rw [Zod.ObjectSchema.parse, Zod.mapM_eq_some_iff, Record.values]
  -- the members stay, the record and the schema go down together
  generalize r.members = members at hprop ⊢
  clear h
  induction hkeys generalizing values with
  | nil => cases values <;> simp
  | @cons p q schema r hkey hkeys ih =>
      obtain ⟨hq, hprop⟩ := List.forall_mem_cons.mp hprop
      cases values with
      | nil => simp
      | cons v values =>
          have hrest : _ ↔ _ := @ih values hprop
          rw [List.map_cons, List.map_cons, List.map_cons, List.cons.injEq, List.cons.injEq,
            hrest, List.forall₂_cons, hkey, hq]
          constructor
          · rintro ⟨hv, hrest, hall⟩
            obtain ⟨w, hw, rfl⟩ := Option.map_eq_some_iff.mp hv
            exact ⟨⟨by rw [parse_doc hw], hrest⟩, by rw [Passes, hw]; rfl, hall⟩
          · rintro ⟨⟨rfl, hrest⟩, hpass, hall⟩
            obtain ⟨w, hw⟩ := Option.isSome_iff_exists.mp hpass
            exact ⟨by rw [hw, parse_doc hw]; rfl, hrest, hall⟩

end Lib.GoJson
