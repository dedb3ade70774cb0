import Mathlib.Algebra.Ring.Nat
import LoopzToken.Lib.GoJson

/-!
# Lib.Runes

The code points of byte strings, as Go reads them.

Decoding the front of a byte string goes one of three ways (`decodeRune_cases`), and a
longer code point depends on its own bytes only. So well-encoded texts can be put
together: what `Spells` some characters does so whatever follows. Any byte string can be
taken apart beside an ASCII byte (`runes_append`).
-/

namespace Lib.GoJson

/-! ### One code point -/

theorem decodeRune_two {b b₁ : UInt8} (h : 0xC2 ≤ b.toNat ∧ b.toNat ≤ 0xDF)
    (h₁ : 0x80 ≤ b₁.toNat ∧ b₁.toNat ≤ 0xBF) (t : Bytes) :
    decodeRune (b :: b₁ :: t) = (b.toNat % 0x20 * 0x40 + b₁.toNat % 0x40, 2) := by
  have hlt : ¬ b.toNat < 0x80 := by omega
  simp [decodeRune, hlt, h, h₁]

theorem decodeRune_three {b b₁ b₂ : UInt8} (h : 0xE0 ≤ b.toNat ∧ b.toNat ≤ 0xEF)
    (h₁ : (if b.toNat = 0xE0 then 0xA0 else 0x80) ≤ b₁.toNat ∧
      b₁.toNat ≤ if b.toNat = 0xED then 0x9F else 0xBF)
    (h₂ : 0x80 ≤ b₂.toNat ∧ b₂.toNat ≤ 0xBF) (t : Bytes) :
    decodeRune (b :: b₁ :: b₂ :: t) =
      (b.toNat % 0x10 * 0x1000 + b₁.toNat % 0x40 * 0x40 + b₂.toNat % 0x40, 3) := by
  have hlt : ¬ b.toNat < 0x80 := by omega
  have hlt : ¬ b.toNat ≤ 0xDF := by omega
  simp [decodeRune, *]

theorem decodeRune_four {b b₁ b₂ b₃ : UInt8} (h : 0xF0 ≤ b.toNat ∧ b.toNat ≤ 0xF4)
    (h₁ : (if b.toNat = 0xF0 then 0x90 else 0x80) ≤ b₁.toNat ∧
      b₁.toNat ≤ if b.toNat = 0xF4 then 0x8F else 0xBF)
    (h₂ : 0x80 ≤ b₂.toNat ∧ b₂.toNat ≤ 0xBF) (h₃ : 0x80 ≤ b₃.toNat ∧ b₃.toNat ≤ 0xBF)
    (t : Bytes) :
    decodeRune (b :: b₁ :: b₂ :: b₃ :: t) =
      (b.toNat % 0x08 * 0x40000 + b₁.toNat % 0x40 * 0x1000 + b₂.toNat % 0x40 * 0x40 +
        b₃.toNat % 0x40, 4) := by
  have hlt : ¬ b.toNat < 0x80 := by omega
  have htwo : ¬ b.toNat ≤ 0xDF := by omega
  have hthree : ¬ b.toNat ≤ 0xEF := by omega
  simp [decodeRune, *]

/-- The bytes are the encoding of a character outside ASCII. -/
structure Encodes (bs : Bytes) (c : Char) : Prop where
  length : 2 ≤ bs.length
  size : c.utf8Size = bs.length
  not_ascii : 0x80 ≤ c.toNat
  bytes_not_ascii : ∀ b ∈ bs, 0x80 ≤ b.toNat
  decode : ∀ t, decodeRune (bs ++ t) = (c.toNat, bs.length)

theorem toNat_ofNat {n : ℕ} (h : n < 0xD800 ∨ 0xDFFF < n ∧ n < 0x110000) :
    (Char.ofNat n).toNat = n := by
  rw [Char.ofNat, dif_pos h]
  rfl

theorem utf8Size_eq (c : Char) : c.utf8Size =
    if c.toNat ≤ 0x7F then 1 else if c.toNat ≤ 0x7FF then 2 else if c.toNat ≤ 0xFFFF then 3 else 4 :=
  rfl

theorem encodes_two {b b₁ : UInt8} (h : 0xC2 ≤ b.toNat ∧ b.toNat ≤ 0xDF)
    (h₁ : 0x80 ≤ b₁.toNat ∧ b₁.toNat ≤ 0xBF) :
    Encodes [b, b₁] (Char.ofNat (b.toNat % 0x20 * 0x40 + b₁.toNat % 0x40)) := by
  have hval := toNat_ofNat (n := b.toNat % 0x20 * 0x40 + b₁.toNat % 0x40) (by omega)
  refine ⟨Nat.le_refl _, ?_, by omega, by simp; omega, fun t => ?_⟩
  · rw [utf8Size_eq, if_neg (by omega), if_pos (by omega)]
    rfl
  · rw [hval]
    exact decodeRune_two h h₁ t

theorem encodes_three {b b₁ b₂ : UInt8} (h : 0xE0 ≤ b.toNat ∧ b.toNat ≤ 0xEF)
    (h₁ : (if b.toNat = 0xE0 then 0xA0 else 0x80) ≤ b₁.toNat ∧
      b₁.toNat ≤ if b.toNat = 0xED then 0x9F else 0xBF)
    (h₂ : 0x80 ≤ b₂.toNat ∧ b₂.toNat ≤ 0xBF) :
    Encodes [b, b₁, b₂]
      (Char.ofNat (b.toNat % 0x10 * 0x1000 + b₁.toNat % 0x40 * 0x40 + b₂.toNat % 0x40)) := by
  have hlo : 0x80 ≤ b₁.toNat ∧ b₁.toNat ≤ 0xBF := by
    split at h₁ <;> split at h₁ <;> omega
  have hrange : 0x800 ≤ b.toNat % 0x10 * 0x1000 + b₁.toNat % 0x40 * 0x40 + b₂.toNat % 0x40 ∧
      ¬ (0xD800 ≤ b.toNat % 0x10 * 0x1000 + b₁.toNat % 0x40 * 0x40 + b₂.toNat % 0x40 ∧
        b.toNat % 0x10 * 0x1000 + b₁.toNat % 0x40 * 0x40 + b₂.toNat % 0x40 ≤ 0xDFFF) := by
    split at h₁ <;> split at h₁ <;> omega
  have hval := toNat_ofNat
    (n := b.toNat % 0x10 * 0x1000 + b₁.toNat % 0x40 * 0x40 + b₂.toNat % 0x40) (by omega)
  refine ⟨by simp, ?_, by omega, by simp; omega, fun t => ?_⟩
  · rw [utf8Size_eq, if_neg (by omega), if_neg (by omega), if_pos (by omega)]
    rfl
  · rw [hval]
    exact decodeRune_three h h₁ h₂ t

theorem encodes_four {b b₁ b₂ b₃ : UInt8} (h : 0xF0 ≤ b.toNat ∧ b.toNat ≤ 0xF4)
    (h₁ : (if b.toNat = 0xF0 then 0x90 else 0x80) ≤ b₁.toNat ∧
      b₁.toNat ≤ if b.toNat = 0xF4 then 0x8F else 0xBF)
    (h₂ : 0x80 ≤ b₂.toNat ∧ b₂.toNat ≤ 0xBF) (h₃ : 0x80 ≤ b₃.toNat ∧ b₃.toNat ≤ 0xBF) :
    Encodes [b, b₁, b₂, b₃]
      (Char.ofNat (b.toNat % 0x08 * 0x40000 + b₁.toNat % 0x40 * 0x1000 +
        b₂.toNat % 0x40 * 0x40 + b₃.toNat % 0x40)) := by
  have hlo : 0x80 ≤ b₁.toNat := by
    split at h₁ <;> omega
  have hrange : 0x10000 ≤ b.toNat % 0x08 * 0x40000 + b₁.toNat % 0x40 * 0x1000 ∧
      b.toNat % 0x08 * 0x40000 + b₁.toNat % 0x40 * 0x1000 ≤ 0x10F000 := by
    split at h₁ <;> split at h₁ <;> omega
  have hval := toNat_ofNat (n := b.toNat % 0x08 * 0x40000 + b₁.toNat % 0x40 * 0x1000 +
    b₂.toNat % 0x40 * 0x40 + b₃.toNat % 0x40) (by omega)
  refine ⟨by simp, ?_, by omega, by simp; omega, fun t => ?_⟩
  · rw [utf8Size_eq, if_neg (by omega), if_neg (by omega), if_neg (by omega)]
    rfl
  · rw [hval]
    exact decodeRune_four h h₁ h₂ h₃ t

/-- **What stands in front of a byte string**: an ASCII character, a byte that starts no
code point, or a longer code point. -/
theorem decodeRune_cases (b : UInt8) (s : Bytes) :
    (b.toNat < 0x80 ∧ decodeRune (b :: s) = (b.toNat, 1)) ∨
      (0x80 ≤ b.toNat ∧ decodeRune (b :: s) = (0xFFFD, 1)) ∨
        ∃ c bs rest, b :: s = bs ++ rest ∧ Encodes bs c := by
  by_cases hlt : b.toNat < 0x80
  · exact .inl ⟨hlt, by simp [decodeRune, hlt]⟩
  refine .inr ?_
  by_cases hinv : decodeRune (b :: s) = (0xFFFD, 1)
  · exact .inl ⟨by omega, hinv⟩
  refine .inr ?_
  have hbranch : ∀ (c₂ c₃ c₄ : Bool) (r₂ r₃ r₄ r : ℕ × ℕ),
      (if c₂ then r₂ else if c₃ then r₃ else if c₄ then r₄ else r) ≠ r →
        c₂ = true ∨ c₃ = true ∨ c₄ = true := by
    intro c₂ c₃ c₄ r₂ r₃ r₄ r h
    cases c₂ <;> cases c₃ <;> cases c₄ <;> simp_all
  unfold decodeRune at hinv
  simp only [List.getElem?_cons_zero, Option.map_some, Option.getD_some, hlt, if_false] at hinv
  rcases hbranch _ _ _ _ _ _ _ hinv with h | h | h
  · match s with
    | [] => simp at h
    | b₁ :: t =>
        simp at h
        exact ⟨_, [b, b₁], t, rfl, encodes_two h.1 h.2⟩
  · match s with
    | [] | [_] => simp at h
    | b₁ :: b₂ :: t =>
        simp at h
        exact ⟨_, [b, b₁, b₂], t, rfl, encodes_three h.1.1.1 ⟨h.1.1.2, h.1.2⟩ h.2⟩
  · match s with
    | [] | [_] | [_, _] => simp at h
    | b₁ :: b₂ :: b₃ :: t =>
        simp at h
        exact ⟨_, [b, b₁, b₂, b₃], t, rfl,
          encodes_four h.1.1.1.1 ⟨h.1.1.1.2, h.1.1.2⟩ h.1.2 h.2⟩

/-! ### Texts -/

/-- The length of a text in bytes. -/
def textSize (cs : List Char) : ℕ := (cs.map Char.utf8Size).sum

/-- The bytes are the encoding of the characters: they are decoded to them, and what
follows is decoded on its own. -/
structure Spells (bs : Bytes) (cs : List Char) : Prop where
  read : ∀ t, runes 0 (bs ++ t) = cs ++ runes 0 t
  size : textSize cs = bs.length

theorem Spells.runes {bs : Bytes} {cs : List Char} (h : Spells bs cs) : runes 0 bs = cs := by
  have := h.read []
  rwa [List.append_nil, GoJson.runes, List.append_nil] at this

theorem spells_nil : Spells [] [] := ⟨fun _ => rfl, rfl⟩

theorem Spells.append {bs bs' : Bytes} {cs cs' : List Char} (h : Spells bs cs)
    (h' : Spells bs' cs') : Spells (bs ++ bs') (cs ++ cs') := by
  refine ⟨fun t => ?_, ?_⟩
  · rw [List.append_assoc, h.read, h'.read, List.append_assoc]
  · rw [textSize, List.map_append, List.sum_append, List.length_append, ← h.size, ← h'.size]
    rfl

/-- The other bytes of a code point are passed over. -/
theorem runes_length (bs t : Bytes) : runes bs.length (bs ++ t) = runes 0 t := by
  induction bs with
  | nil => rfl
  | cons b bs ih => exact ih

theorem Encodes.spells {bs : Bytes} {c : Char} (h : Encodes bs c) : Spells bs [c] := by
  refine ⟨fun t => ?_, (Nat.add_zero _).trans h.size⟩
  have hlen := h.length
  have hdec := h.decode t
  cases bs with
  | nil => simp at hlen
  | cons b bs =>
      rw [List.cons_append] at hdec ⊢
      rw [GoJson.runes, hdec, List.length_cons, Nat.add_sub_cancel, runes_length,
        Char.ofNat_toNat]
      rfl

theorem spells_ascii {b : UInt8} (h : b.toNat < 0x80) : Spells [b] [Char.ofNat b.toNat] := by
  have hval : (Char.ofNat b.toNat).toNat = b.toNat := toNat_ofNat (by omega)
  refine ⟨fun t => ?_, ?_⟩
  · have hdec : decodeRune (b :: t) = (b.toNat, 1) := by simp [decodeRune, h]
    rw [List.singleton_append, GoJson.runes, hdec]
    rfl
  · rw [textSize, List.map_singleton, List.sum_singleton, utf8Size_eq, if_pos (by omega)]
    rfl

/-- The constants of a program. -/
theorem spells_of_ascii (bs : Bytes) (h : (bs.all fun b => b.toNat < 0x80) = true) :
    Spells bs (bs.map fun b => Char.ofNat b.toNat) := by
  induction bs with
  | nil => exact spells_nil
  | cons b bs ih =>
      rw [List.all_cons, Bool.and_eq_true] at h
      exact (spells_ascii (of_decide_eq_true h.1)).append (ih h.2)

/-! ### Prefixes -/

/-- An ASCII character in front. -/
theorem runes_ascii {b : UInt8} (h : b.toNat < 0x80) (s : Bytes) :
    runes 0 (b :: s) = Char.ofNat b.toNat :: runes 0 s :=
  (spells_ascii h).read s

/-- A byte in front that starts no code point. -/
theorem runes_invalid {b : UInt8} {s : Bytes} (h : decodeRune (b :: s) = (0xFFFD, 1)) :
    runes 0 (b :: s) = '\uFFFD' :: runes 0 s := by
  rw [runes, h]
  rfl

/-- No code point goes on over a place with an ASCII byte on one of its sides. -/
theorem Encodes.append_eq {bs s t rest : Bytes} {c : Char} (henc : Encodes bs c)
    (hne : s ≠ []) (h : (∀ b, s.getLast? = some b → b.toNat < 0x80) ∨
      ∀ b, t.head? = some b → b.toNat < 0x80) (heq : s ++ t = bs ++ rest) :
    ∃ s', s = bs ++ s' ∧ rest = s' ++ t := by
  rcases List.append_eq_append_iff.mp heq with ⟨bs', rfl, rfl⟩ | ⟨s', rfl, rfl⟩
  · cases bs' with
    | nil => exact ⟨[], by simp, by simp⟩
    | cons b bs' =>
        rcases h with h | h
        · have hlast := List.getLast_mem hne
          have := henc.bytes_not_ascii _ (List.mem_append_left _ hlast)
          have := h _ (List.getLast?_eq_some_getLast hne)
          omega
        · have := henc.bytes_not_ascii b (by simp)
          have := h b rfl
          omega
  · exact ⟨s', rfl, rfl⟩

/-- **Texts are decoded apart** at a place with an ASCII byte on one of its sides. -/
theorem runes_append {s t : Bytes} (h : (∀ b, s.getLast? = some b → b.toNat < 0x80) ∨
    ∀ b, t.head? = some b → b.toNat < 0x80) : runes 0 (s ++ t) = runes 0 s ++ runes 0 t := by
  generalize hn : s.length = n
  induction n using Nat.strong_induction_on generalizing s with
  | _ n ih =>
      cases s with
      | nil => rfl
      | cons b s =>
          have htail : ∀ s' pre, b :: s = pre ++ s' →
              (∀ x, s'.getLast? = some x → x.toNat < 0x80) ∨
                ∀ x, t.head? = some x → x.toNat < 0x80 := by
            intro s' pre heq
            refine h.imp_left fun hlast x hx => hlast x ?_
            rw [heq, List.getLast?_append, hx]
            rfl
          have hrest := ih s.length (by simp [← hn]) (htail s [b] rfl) rfl
          rw [List.cons_append]
          rcases decodeRune_cases b (s ++ t) with ⟨hlt, -⟩ | ⟨hge, hinv⟩ | ⟨c, bs, rest, heq, henc⟩
          · rw [runes_ascii hlt, runes_ascii hlt, hrest, List.cons_append]
          · have hinv' : decodeRune (b :: s) = (0xFFFD, 1) := by
              rcases decodeRune_cases b s with ⟨hlt, -⟩ | ⟨-, hinv'⟩ | ⟨c, bs, rest, heq, henc⟩
              · omega
              · exact hinv'
              · rw [← List.cons_append, heq, List.append_assoc, henc.decode] at hinv
                have hone := congrArg Prod.snd hinv
                have := henc.length
                simp only at hone
                omega
            rw [runes_invalid hinv, runes_invalid hinv', hrest, List.cons_append]
          · obtain ⟨s', hs, rfl⟩ := henc.append_eq (List.cons_ne_nil b s) h heq
            have hlen := congrArg List.length hs
            have := henc.length
            rw [List.length_append] at hlen
            rw [heq, hs, henc.spells.read, henc.spells.read,
              ih s'.length (by omega) (htail s' bs hs) rfl, List.append_assoc]

/-- A byte string that does not end in ASCII stands for a text that does not. -/
theorem getLast?_runes {s : Bytes} {b : UInt8} (hb : s.getLast? = some b)
    (hge : 0x80 ≤ b.toNat) : ∃ c, (runes 0 s).getLast? = some c ∧ 0x80 ≤ c.toNat := by
  generalize hn : s.length = n
  induction n using Nat.strong_induction_on generalizing s with
  | _ n ih =>
      cases s with
      | nil => cases hb
      | cons x s =>
          -- one character of the text, and what it leaves of the bytes
          have hcons : ∀ c pre rest, x :: s = pre ++ rest → pre ≠ [] →
              runes 0 (x :: s) = c :: runes 0 rest → (rest = [] → 0x80 ≤ c.toNat) →
                ∃ c, (runes 0 (x :: s)).getLast? = some c ∧ 0x80 ≤ c.toNat := by
            intro c pre rest heq hpre hruns hlast
            have hlen := congrArg List.length heq
            rw [List.length_append] at hlen
            have := List.length_pos_of_ne_nil hpre
            by_cases hnil : rest = []
            · exact ⟨c, by rw [hruns, hnil]; rfl, hlast hnil⟩
            · rw [heq, List.getLast?_append_of_ne_nil _ hnil] at hb
              obtain ⟨d, hd, hdge⟩ := ih rest.length (by omega) hb rfl
              exact ⟨d, by rw [hruns, List.getLast?_cons, hd, Option.getD_some], hdge⟩
          rcases decodeRune_cases x s with ⟨hlt, -⟩ | ⟨-, hinv⟩ | ⟨c, bs, rest, heq, henc⟩
          · refine hcons _ [x] s rfl (by simp) (runes_ascii hlt s) fun hnil => ?_
            rw [hnil] at hb
            obtain rfl : x = b := Option.some.inj hb
            omega
          · exact hcons _ [x] s rfl (by simp) (runes_invalid hinv) fun _ => by decide
          · refine hcons c bs rest heq ?_ ?_ fun _ => henc.not_ascii
            · exact List.ne_nil_of_length_pos (Nat.lt_of_lt_of_le (by decide) henc.length)
            · rw [heq]
              exact henc.spells.read rest

end Lib.GoJson
