import LoopzToken.Lib.Hex
import LoopzToken.Lib.JsonWrite
import LoopzToken.Lib.Runes

/-!
# Lib.GoMarshal

`json.Marshal` of Go's `encoding/json`, for strings, booleans and structs of such
values. Strings are escaped for HTML, and a byte that starts no code point is written
as an escaped U+FFFD, so every value has a text, and the text is well encoded.

`parse_marshal` is the round trip: whatever the strings of a value are, its text is
parsed to the document the value stands for.
-/

namespace Lib.GoJson

open JsonParse

/-! ### Strings -/

/-- `htmlSafeSet`: what stands for itself in a string. -/
def htmlSafe (b : UInt8) : Bool :=
  32 ≤ b.toNat && b.toNat < 0x80 && b ≠ 34 && b ≠ 38 && b ≠ 60 && b ≠ 62 && b ≠ 92

/-- Any other ASCII character. -/
def escapeByte (b : UInt8) : Bytes :=
  if b = 92 ∨ b = 34 then [92, b]
  else if b = 8 then [92, 98]
  else if b = 12 then [92, 102]
  else if b = 10 then [92, 110]
  else if b = 13 then [92, 114]
  else if b = 9 then [92, 116]
  else [92, 117, 48, 48, Hex.lowerDigit (b.toNat / 16), Hex.lowerDigit (b.toNat % 16)]

/-- What is written for the code point in front. -/
def appendRune : Bytes → Bytes
  | [] => []
  | b :: s =>
      if b.toNat < 0x80 then if htmlSafe b then [b] else escapeByte b
      else
        let (c, size) := decodeRune (b :: s)
        if c = 0xFFFD ∧ size = 1 then utf8 "\\ufffd"
        else if c = 0x2028 ∨ c = 0x2029 then utf8 "\\u202" ++ [Hex.lowerDigit (c % 16)]
        else (b :: s).take size

/-- `appendString`, between the quotes, after some bytes of the code point before. -/
def appendString : ℕ → Bytes → Bytes
  | _, [] => []
  | skip + 1, _ :: s => appendString skip s
  | 0, b :: s => appendRune (b :: s) ++ appendString ((decodeRune (b :: s)).2 - 1) s

/-! ### Values -/

/-- A value that is marshalled. -/
inductive Value
  | string (s : Bytes)
  | bool (b : Bool)
  | struct (fields : List (Bytes × Value))

mutual

/-- `json.Marshal`. -/
def marshal : Value → Bytes
  | .string s => 34 :: (appendString 0 s ++ [34])
  | .bool b => utf8 (if b then "true" else "false")
  | .struct fields => (if fields.isEmpty then [123] else marshalFields 123 fields) ++ [125]

/-- The fields of a struct, the first one after the given byte. -/
def marshalFields (next : UInt8) : List (Bytes × Value) → Bytes
  | [] => []
  | (name, v) :: fields =>
      next :: 34 :: (appendString 0 name ++ 34 :: 58 :: (marshal v ++ marshalFields 44 fields))

end

/-- `json.NewEncoder(w).Encode(v)`: the text, and a line feed. -/
def encode (v : Value) : Bytes := marshal v ++ [10]

example : marshal (.struct [([97], .string [60, 0xE2, 0x80, 0xA8, 0xFF]), ([98], .bool true)]) =
    utf8 "\x7b\"a\":\"\\u003c\\u2028\\ufffd\",\"b\":true\x7d" := by decide +kernel

/-! ### What a value stands for -/

/-- The code units of a string, with U+FFFD for every byte that starts no code point. -/
def textOf (s : Bytes) : JsonText := (runes 0 s).flatMap charUnits

mutual

def Value.doc : Value → Json
  | .string s => .string (textOf s)
  | .bool b => .bool b
  | .struct fields => .object (docFields fields)

def docFields : List (Bytes × Value) → List (JsonText × Json)
  | [] => []
  | (name, v) :: fields => (textOf name, v.doc) :: docFields fields

end

/-! ### Strings are read back -/

theorem hexDigit?_lowerDigit {n : ℕ} (hn : n < 16) :
    hexDigit? (Char.ofNat (Hex.lowerDigit n).toNat) = some n :=
  (by decide : ∀ n < 16, hexDigit? (Char.ofNat (Hex.lowerDigit n).toNat) = some n) n hn

theorem lowerDigit_ascii {n : ℕ} (hn : n < 16) : (Hex.lowerDigit n).toNat < 0x80 :=
  (by decide : ∀ n < 16, (Hex.lowerDigit n).toNat < 0x80) n hn

/-- The text that the bytes spell, as the content of a string. -/
def Reads (bs : Bytes) (units : JsonText) : Prop := ∃ cs, Spells bs cs ∧ Quotes cs units

theorem Reads.append {bs bs' : Bytes} {units units' : JsonText} (h : Reads bs units)
    (h' : Reads bs' units') : Reads (bs ++ bs') (units ++ units') := by
  obtain ⟨cs, hs, hq⟩ := h
  obtain ⟨cs', hs', hq'⟩ := h'
  exact ⟨cs ++ cs', hs.append hs', hq.append hq'⟩

/-- A unicode escape. -/
theorem reads_unicode (d₁ d₂ d₃ d₄ : ℕ) (h₁ : d₁ < 16) (h₂ : d₂ < 16) (h₃ : d₃ < 16)
    (h₄ : d₄ < 16) :
    Reads [92, 117, Hex.lowerDigit d₁, Hex.lowerDigit d₂, Hex.lowerDigit d₃, Hex.lowerDigit d₄]
      [UInt16.ofNat (16 * (16 * (16 * d₁ + d₂) + d₃) + d₄)] := by
  refine ⟨_, spells_of_ascii _ ?_, .unicode (hexDigit?_lowerDigit h₁) (hexDigit?_lowerDigit h₂)
    (hexDigit?_lowerDigit h₃) (hexDigit?_lowerDigit h₄) .nil⟩
  simp [lowerDigit_ascii, h₁, h₂, h₃, h₄]

theorem reads_escapeByte {b : UInt8} (hb : b.toNat < 0x80) :
    Reads (escapeByte b) (charUnits (Char.ofNat b.toNat)) := by
  have hshort : ∀ c u : UInt8, u.toNat < 0x80 →
      escapeUnit (Char.ofNat u.toNat) = some (UInt16.ofNat c.toNat) →
      c.toNat < 0x80 → Reads [92, u] (charUnits (Char.ofNat c.toNat)) := by
    intro c u hu hunit hc
    have hval : (Char.ofNat c.toNat).toNat = c.toNat := toNat_ofNat (by omega)
    refine ⟨_, spells_of_ascii [92, u] (by simp [hu]), ?_⟩
    rw [charUnits, hval, if_pos (by omega)]
    exact .escape hunit .nil
  unfold escapeByte
  split
  · rename_i h
    rcases h with rfl | rfl <;> exact hshort _ _ hb (by decide) hb
  split
  · rename_i h
    subst h
    exact hshort 8 98 (by decide) (by decide) hb
  split
  · rename_i h
    subst h
    exact hshort 12 102 (by decide) (by decide) hb
  split
  · rename_i h
    subst h
    exact hshort 10 110 (by decide) (by decide) hb
  split
  · rename_i h
    subst h
    exact hshort 13 114 (by decide) (by decide) hb
  split
  · rename_i h
    subst h
    exact hshort 9 116 (by decide) (by decide) hb
  · have hval : (Char.ofNat b.toNat).toNat = b.toNat := toNat_ofNat (by omega)
    have h := reads_unicode 0 0 (b.toNat / 16) (b.toNat % 16)
      (by decide) (by decide) (by omega) (by omega)
    rw [charUnits, hval, if_pos (by omega)]
    rwa [show 16 * (16 * (16 * 0 + 0) + b.toNat / 16) + b.toNat % 16 = b.toNat by omega] at h

/-- What is written for a code point is read as the code point. -/
theorem reads_appendRune (b : UInt8) (s : Bytes) :
    Reads (appendRune (b :: s)) (charUnits (Char.ofNat (decodeRune (b :: s)).1)) := by
  rw [appendRune]
  rcases decodeRune_cases b s with ⟨hlt, hdec⟩ | ⟨hge, hdec⟩ | ⟨c, bs, rest, heq, henc⟩
  · rw [if_pos hlt, hdec]
    split
    · rename_i hsafe
      have hval : (Char.ofNat b.toNat).toNat = b.toNat := toNat_ofNat (by omega)
      simp only [htmlSafe, Bool.and_eq_true, decide_eq_true_eq, ne_eq] at hsafe
      have hne : ∀ {c : Char} {x : UInt8}, b ≠ x → c.toNat = x.toNat → Char.ofNat b.toNat ≠ c := by
        intro c x hbx hcx heq
        exact hbx (UInt8.toNat_inj.mp (by rw [← hcx, ← heq, hval]))
      refine ⟨_, spells_ascii hlt, ?_⟩
      rw [← List.append_nil (charUnits _)]
      exact .raw (hne hsafe.1.1.1.1.2 rfl) (hne hsafe.2 rfl) (by omega) .nil
    · exact reads_escapeByte hlt
  · rw [if_neg (by omega), hdec]
    exact reads_unicode 15 15 15 13 (by decide) (by decide)
      (by decide) (by decide)
  · have hdec : decodeRune (b :: s) = (c.toNat, bs.length) := heq ▸ henc.decode rest
    have hlen := henc.length
    have hge : ¬ b.toNat < 0x80 := by
      intro hlt
      have hone : decodeRune (b :: s) = (b.toNat, 1) := by simp [decodeRune, hlt]
      have := congrArg Prod.snd (hdec.symm.trans hone)
      omega
    rw [if_neg hge, hdec]
    dsimp only
    rw [if_neg (by omega), Char.ofNat_toNat]
    split
    · rename_i hsep
      have h := reads_unicode 2 0 2 (c.toNat % 16) (by decide)
        (by decide) (by decide) (by omega)
      rw [show 16 * (16 * (16 * 2 + 0) + 2) + c.toNat % 16 = c.toNat by omega] at h
      rw [charUnits, if_pos (by omega)]
      exact h
    · have hascii := henc.not_ascii
      have hne : ∀ d : Char, d.toNat < 0x80 → c ≠ d := by
        intro d hd hcd
        subst hcd
        omega
      rw [heq, List.take_left]
      refine ⟨[c], henc.spells, ?_⟩
      rw [← List.append_nil (charUnits _)]
      exact .raw (hne _ (by decide)) (hne _ (by decide)) (by omega) .nil

theorem reads_appendString (s : Bytes) (skip : ℕ) :
    Reads (appendString skip s) ((runes skip s).flatMap charUnits) := by
  induction s generalizing skip with
  | nil => exact ⟨[], spells_nil, .nil⟩
  | cons b s ih =>
      cases skip with
      | succ skip => exact ih skip
      | zero =>
          rw [appendString, runes, List.flatMap_cons]
          exact (reads_appendRune b s).append (ih _)

/-! ### Values are read back -/

/-- The bytes spell a text that denotes the document. -/
def Writes (bs : Bytes) (doc : Json) : Prop := ∃ cs, Spells bs cs ∧ Denotes cs doc

/-- The bytes spell the members of an object, each after a comma. -/
def WritesMembers (bs : Bytes) (members : List (JsonText × Json)) : Prop :=
  ∃ cs, Spells bs cs ∧ DenotesMembers cs members

theorem writes_string (s : Bytes) : Writes (marshal (.string s)) (.string (textOf s)) := by
  obtain ⟨cs, hs, hq⟩ := reads_appendString s 0
  have hquote : Spells [34] ['"'] := spells_ascii (by decide)
  refine ⟨'"' :: (cs ++ ['"']), ?_, denotes_string hq⟩
  rw [marshal]
  exact hquote.append (hs.append hquote)

theorem writes_bool (b : Bool) : Writes (marshal (.bool b)) (.bool b) := by
  refine ⟨_, ?_, denotes_bool b⟩
  rw [marshal]
  cases b with
  | false => exact spells_of_ascii (utf8 "false") (by decide +kernel)
  | true => exact spells_of_ascii (utf8 "true") (by decide +kernel)

/-- A field, without what stands before its name, and the fields that follow. -/
theorem spells_field (name : Bytes) {v : Value} {rest : Bytes} {doc : Json}
    {members : List (JsonText × Json)} (hv : Writes (marshal v) doc)
    (hrest : WritesMembers rest members) :
    ∃ cs, Spells (34 :: (appendString 0 name ++ 34 :: 58 :: (marshal v ++ rest))) ('"' :: cs) ∧
      DenotesMembers (',' :: '"' :: cs) ((textOf name, doc) :: members) := by
  obtain ⟨ks, hks, hk⟩ := reads_appendString name 0
  obtain ⟨vs, hvs, hv⟩ := hv
  obtain ⟨cs, hcs, hm⟩ := hrest
  have hquote : Spells [34] ['"'] := spells_ascii (by decide)
  have hcolon : Spells [58] [':'] := spells_ascii (by decide)
  have hmembers := denotesMembers_cons hk hv hm
  exact ⟨_, hquote.append (hks.append (hquote.append (hcolon.append (hvs.append hcs)))),
    hmembers⟩

mutual

theorem writes_marshal : (v : Value) → Writes (marshal v) v.doc
  | .string s => writes_string s
  | .bool b => writes_bool b
  | .struct [] =>
      ⟨_, spells_of_ascii [123, 125] (by decide), denotes_emptyObject⟩
  | .struct ((name, v) :: fields) => by
      obtain ⟨cs, hs, hm⟩ := spells_field name (writes_marshal v)
        (writes_marshalFields fields)
      have hopen : Spells [123] ['\x7b'] := spells_ascii (by decide)
      have hclose : Spells [125] ['\x7d'] := spells_ascii (by decide)
      exact ⟨_, (hopen.append hs).append hclose, denotes_object hm⟩

theorem writes_marshalFields : (fields : List (Bytes × Value)) →
    WritesMembers (marshalFields 44 fields) (docFields fields)
  | [] => ⟨[], spells_nil, denotesMembers_nil⟩
  | (name, v) :: fields => by
      obtain ⟨cs, hs, hm⟩ := spells_field name (writes_marshal v)
        (writes_marshalFields fields)
      have hcomma : Spells [44] [','] := spells_ascii (by decide)
      exact ⟨_, hcomma.append hs, hm⟩

end

/-- **The round trip**: a marshalled value is parsed to its document. -/
theorem parse_marshal (v : Value) : parse (runes 0 (marshal v)) = some v.doc := by
  obtain ⟨cs, hs, hd⟩ := writes_marshal v
  rw [hs.runes]
  exact parse_of_denotes hd

/-! ### ASCII -/

/-- An ASCII text has one code unit a byte. -/
theorem textOf_ascii {s : Bytes} (h : ∀ b ∈ s, b.toNat < 0x80) :
    textOf s = s.map fun b => UInt16.ofNat b.toNat := by
  have hspells := spells_of_ascii s (by simpa using h)
  rw [textOf, hspells.runes, List.flatMap_map]
  conv_rhs => rw [← List.flatMap_singleton' (s.map _), List.flatMap_map]
  refine List.flatMap_congr fun b hb => ?_
  have hb := h b hb
  rw [charUnits, toNat_ofNat (by omega), if_pos (by omega)]

/-- The code units of a character outside ASCII are outside ASCII. -/
theorem charUnits_not_ascii {c : Char} (hc : 0x80 ≤ c.toNat) :
    ∃ u ∈ charUnits c, 0x80 ≤ u.toNat := by
  have hvalid : c.toNat < 0xD800 ∨ 0xDFFF < c.toNat ∧ c.toNat < 0x110000 := c.valid
  rw [charUnits]
  split
  · refine ⟨_, List.mem_singleton_self _, ?_⟩
    rw [UInt16.toNat_ofNat', Nat.mod_eq_of_lt (by omega)]
    exact hc
  · refine ⟨_, List.mem_cons_self, ?_⟩
    rw [UInt16.toNat_ofNat', Nat.mod_eq_of_lt (by omega)]
    omega

/-- A byte string whose text is ASCII is ASCII. -/
theorem ascii_of_textOf {s : Bytes} (h : ∀ u ∈ textOf s, u.toNat < 0x80) :
    ∀ b ∈ s, b.toNat < 0x80 := by
  induction s with
  | nil => simp
  | cons b s ih =>
      have hhead : ∀ u ∈ charUnits (Char.ofNat (decodeRune (b :: s)).1), u.toNat < 0x80 :=
        fun u hu => h u (List.mem_flatMap.mpr ⟨_, List.mem_cons_self, hu⟩)
      rcases decodeRune_cases b s with ⟨hlt, hdec⟩ | ⟨-, hdec⟩ | ⟨c, bs, rest, heq, henc⟩
      · refine List.forall_mem_cons.mpr ⟨hlt, ih fun u hu => h u ?_⟩
        rw [textOf, runes, hdec]
        exact List.mem_append_right _ hu
      · rw [hdec] at hhead
        exact absurd (hhead 0xFFFD (by decide)) (by decide)
      · rw [heq, henc.decode, Char.ofNat_toNat] at hhead
        obtain ⟨u, hu, hge⟩ := charUnits_not_ascii henc.not_ascii
        have := hhead u hu
        omega

/-- An ASCII text is the text of one byte string. -/
theorem textOf_eq_iff {s t : Bytes} (ht : ∀ b ∈ t, b.toNat < 0x80) :
    textOf s = textOf t ↔ s = t := by
  refine ⟨fun h => ?_, fun h => h ▸ rfl⟩
  have hunit : ∀ b : UInt8, (UInt16.ofNat b.toNat).toNat = b.toNat := fun b => by
    have := b.toNat_lt
    rw [UInt16.toNat_ofNat', Nat.mod_eq_of_lt (by omega)]
  have htext := textOf_ascii ht
  have hs : ∀ b ∈ s, b.toNat < 0x80 := by
    refine ascii_of_textOf fun u hu => ?_
    rw [h, htext] at hu
    obtain ⟨b, hb, rfl⟩ := List.mem_map.mp hu
    rw [hunit]
    exact ht b hb
  rw [textOf_ascii hs, htext] at h
  refine List.map_injective_iff.mpr (fun a b hab => ?_) h
  have := congrArg UInt16.toNat hab
  rw [hunit, hunit] at this
  exact UInt8.toNat_inj.mp this

end Lib.GoJson
