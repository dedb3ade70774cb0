import Mathlib.Data.List.Basic
import LoopzToken.Lib.Runes

/-!
# Lib.JsonSuffix

What may follow a document in a JSON text. White space never changes what is read
(`parse_spaces`), and behind a document that is no number it is all there may be
(`parse_append`); a number may go on.

The machine of `Lib.JsonParse` is looked at one step at a time: outside strings it takes
ASCII only (`step_not_ascii`), so a document ends with an ASCII character, and a byte string
can be taken apart behind one.
-/

namespace Lib.JsonParse

/-! ### Literals -/

/-- What is left of a literal are small letters. -/
def State.Literal (st : State) : Prop :=
  ∀ rest value, st.mode = .literal rest value → ∀ d ∈ rest, 97 ≤ d.toNat ∧ d.toNat ≤ 122

theorem State.literal_of_ne {st : State} (h : ∀ rest value, st.mode ≠ .literal rest value) :
    st.Literal := fun rest value hmode => absurd hmode (h rest value)

theorem complete_literal {stack : List Frame} {value : Json} {st : State}
    (h : complete stack value = some st) : st.Literal := by
  unfold complete at h
  split at h <;> cases h <;> exact State.literal_of_ne (by simp)

theorem close_literal {stack : List Frame} {c : Char} {st : State}
    (h : close stack c = some st) : st.Literal := by
  unfold close at h
  split at h
  · split_ifs at h
    exact complete_literal h
  · split_ifs at h
    exact complete_literal h
  · cases h

theorem start_literal {stack : List Frame} {c : Char} {st : State}
    (h : start stack c = some st) : st.Literal := by
  unfold start at h
  split_ifs at h <;> cases h <;> intro rest v hmode <;> cases hmode <;> simp

theorem stepAfter_literal {st st' : State} {c : Char} (hl : st.Literal)
    (h : stepAfter st c = some st') : st'.Literal := by
  unfold stepAfter at h
  split at h
  · split_ifs at h
    · exact Option.some.inj h ▸ hl
    · split at h <;> cases h <;> exact State.literal_of_ne (by simp)
    · exact close_literal h
  · split_ifs at h
    exact Option.some.inj h ▸ hl
  · cases h

theorem step_literal {st st' : State} {c : Char} (hl : st.Literal) (h : step st c = some st') :
    st'.Literal := by
  have hsame : some st = some st' → st'.Literal := fun heq => Option.some.inj heq ▸ hl
  have hother : ∀ {stack mode}, some (State.mk stack mode) = some st' →
      (∀ rest value, mode ≠ .literal rest value) → st'.Literal := by
    intro stack mode heq hmode
    exact Option.some.inj heq ▸ State.literal_of_ne hmode
  obtain ⟨stack, mode⟩ := st
  unfold step at h
  cases mode with
  | value =>
      dsimp only at h
      split_ifs at h
      · exact hsame h
      · exact start_literal h
  | element =>
      dsimp only at h
      split_ifs at h
      · exact hsame h
      · exact close_literal h
      · exact start_literal h
  | firstKey =>
      dsimp only at h
      split_ifs at h
      · exact hsame h
      · exact hother h (by simp)
      · exact close_literal h
  | key | colon =>
      dsimp only at h
      split_ifs at h
      · exact hsame h
      · exact hother h (by simp)
  | string isKey units =>
      dsimp only at h
      split_ifs at h
      · split at h
        · exact hother h (by simp)
        · cases h
      · exact complete_literal h
      · exact hother h (by simp)
      · exact hother h (by simp)
  | escape isKey units =>
      dsimp only at h
      split_ifs at h
      · exact hother h (by simp)
      · obtain ⟨u, -, h⟩ := Option.map_eq_some_iff.mp h
        exact hother (congrArg some h) (by simp)
  | unicode isKey units digits code =>
      obtain ⟨d, -, h⟩ := Option.map_eq_some_iff.mp h
      split_ifs at h <;> exact hother (congrArg some h) (by simp)
  | number num lexeme =>
      dsimp only at h
      split at h
      · exact hother h (by simp)
      · split_ifs at h
        obtain ⟨u, hu, h⟩ := Option.bind_eq_some_iff.mp h
        exact stepAfter_literal (complete_literal hu) h
  | literal rest value =>
      dsimp only at h
      split at h
      · cases h
      · split_ifs at h
        exact complete_literal h
      · split_ifs at h
        cases h
        intro rest' value' heq d hd
        cases heq
        exact hl _ _ rfl d (List.mem_cons_of_mem _ hd)
  | after | done => exact stepAfter_literal hl h

theorem foldlM_literal {st st' : State} {cs : List Char} (hl : st.Literal)
    (h : cs.foldlM step st = some st') : st'.Literal := by
  induction cs generalizing st with
  | nil => exact Option.some.inj h ▸ hl
  | cons c cs ih =>
      obtain ⟨u, hu, h⟩ := Option.bind_eq_some_iff.mp h
      exact ih (step_literal hl hu) h

/-- Before the first character. -/
theorem init_literal : State.Literal ⟨[], .value⟩ := State.literal_of_ne (by simp)

/-! ### ASCII -/

theorem ne_of_not_ascii {c d : Char} (hc : ¬ c.toNat < 0x80) (hd : d.toNat < 0x80) : c ≠ d :=
  fun heq => hc (heq ▸ hd)

theorem isSpace_cases {c : Char} (h : isSpace c = true) :
    c = ' ' ∨ c = '\t' ∨ c = '\n' ∨ c = '\r' := by
  simpa [isSpace, or_assoc] using h

theorem isSpace_ascii {c : Char} (h : isSpace c = true) : c.toNat < 0x80 := by
  rcases isSpace_cases h with rfl | rfl | rfl | rfl <;> simp

theorem isDigit_ascii {c : Char} (h : isDigit c = true) : c.toNat < 0x80 := by
  simp only [isDigit, Bool.and_eq_true, decide_eq_true_eq] at h
  exact Nat.lt_of_le_of_lt h.2 (by decide)

theorem hexDigit?_ascii {c : Char} {d : ℕ} (h : hexDigit? c = some d) : c.toNat < 0x80 := by
  unfold hexDigit? at h
  split_ifs at h with h₁ h₂ h₃
  · exact Nat.lt_of_le_of_lt h₁.2 (by decide)
  · exact Nat.lt_of_le_of_lt h₂.2 (by decide)
  · exact Nat.lt_of_le_of_lt h₃.2 (by decide)

theorem escapeUnit_ascii {c : Char} {u : UInt16} (h : escapeUnit c = some u) :
    c.toNat < 0x80 := by
  by_contra hc
  simp [escapeUnit, ne_of_not_ascii hc] at h

theorem next_ascii {num num' : NumberState} {c : Char} (h : num.next c = some num') :
    c.toNat < 0x80 := by
  by_contra hc
  have hdigit : isDigit c = false := Bool.eq_false_iff.mpr fun hd => hc (isDigit_ascii hd)
  cases num <;> simp [NumberState.next, hdigit, ne_of_not_ascii hc] at h

theorem start_ascii {stack : List Frame} {c : Char} {st : State} (h : start stack c = some st) :
    c.toNat < 0x80 := by
  by_contra hc
  have hdigit : isDigit c = false := Bool.eq_false_iff.mpr fun hd => hc (isDigit_ascii hd)
  simp [start, hdigit, ne_of_not_ascii hc] at h

theorem close_ascii {stack : List Frame} {c : Char} {st : State} (h : close stack c = some st) :
    c.toNat < 0x80 := by
  by_contra hc
  unfold close at h
  split at h <;> simp [ne_of_not_ascii hc] at h

theorem stepAfter_ascii {st st' : State} {c : Char} (h : stepAfter st c = some st') :
    c.toNat < 0x80 := by
  unfold stepAfter at h
  split at h
  · split_ifs at h with hspace hcomma
    · exact isSpace_ascii hspace
    · simp [hcomma]
    · exact close_ascii h
  · split_ifs at h with hspace
    exact isSpace_ascii hspace
  · cases h

/-- **Outside strings, a text is ASCII.** -/
theorem step_not_ascii {st st' : State} {c : Char} (hl : st.Literal) (hc : ¬ c.toNat < 0x80)
    (h : step st c = some st') : ∃ isKey units, st'.mode = .string isKey units := by
  have hspace : isSpace c = false := Bool.eq_false_iff.mpr fun hs => hc (isSpace_ascii hs)
  have hnone : ∀ {x : Option State}, (∀ st, x = some st → c.toNat < 0x80) → x ≠ some st' :=
    fun hx heq => hc (hx _ heq)
  obtain ⟨stack, mode⟩ := st
  unfold step at h
  simp only [hspace, ne_of_not_ascii hc (show '"'.toNat < 0x80 by simp),
    ne_of_not_ascii hc (show '\\'.toNat < 0x80 by simp),
    ne_of_not_ascii hc (show 'u'.toNat < 0x80 by simp),
    ne_of_not_ascii hc (show ':'.toNat < 0x80 by simp), Bool.false_eq_true, if_false] at h
  cases mode with
  | value => exact absurd h (hnone fun _ => start_ascii)
  | element =>
      dsimp only at h
      split_ifs at h
      · exact absurd h (hnone fun _ => close_ascii)
      · exact absurd h (hnone fun _ => start_ascii)
  | firstKey => exact absurd h (hnone fun _ => close_ascii)
  | key | colon => cases h
  | string isKey units =>
      dsimp only at h
      split_ifs at h
      cases h
      exact ⟨_, _, rfl⟩
  | escape isKey units =>
      obtain ⟨u, hu, -⟩ := Option.map_eq_some_iff.mp h
      exact absurd (escapeUnit_ascii hu) hc
  | unicode isKey units digits code =>
      obtain ⟨d, hd, -⟩ := Option.map_eq_some_iff.mp h
      exact absurd (hexDigit?_ascii hd) hc
  | number num lexeme =>
      dsimp only at h
      split at h
      · rename_i hnext
        exact absurd (next_ascii hnext) hc
      · split_ifs at h
        obtain ⟨u, -, h⟩ := Option.bind_eq_some_iff.mp h
        exact absurd (stepAfter_ascii h) hc
  | literal rest value =>
      have hrest := hl _ _ rfl
      dsimp only at h
      split at h
      · cases h
      · split_ifs at h with heq
        have hd := (hrest _ (List.mem_singleton_self _)).2
        exact absurd (heq ▸ hd) (by omega)
      · split_ifs at h with heq
        have hd := (hrest _ List.mem_cons_self).2
        exact absurd (heq ▸ hd) (by omega)
  | after | done => exact absurd h (hnone fun _ => stepAfter_ascii)

/-- A document ends with an ASCII character. -/
theorem ascii_of_parse {cs : List Char} {doc : Json} (h : parse cs = some doc) {c : Char}
    (hc : cs.getLast? = some c) : c.toNat < 0x80 := by
  by_contra hno
  obtain ⟨cs, rfl⟩ := List.getLast?_eq_some_iff.mp hc
  obtain ⟨st', hst', hfinish⟩ := Option.bind_eq_some_iff.mp h
  rw [List.foldlM_append] at hst'
  obtain ⟨st, hst, hstep⟩ := Option.bind_eq_some_iff.mp hst'
  rw [List.foldlM_cons] at hstep
  obtain ⟨u, hu, hlast⟩ := Option.bind_eq_some_iff.mp hstep
  obtain rfl : u = st' := Option.some.inj hlast
  obtain ⟨isKey, units, hmode⟩ := step_not_ascii (foldlM_literal init_literal hst) hno hu
  unfold finish at hfinish
  split at hfinish
  · rename_i hdone
    rw [hmode] at hdone
    cases hdone
  · rename_i hnum
    rw [hmode] at hnum
    cases hnum
  · cases hfinish

/-! ### White space -/

theorem finish_cons (f : Frame) (stack : List Frame) (mode : Mode) :
    finish ⟨f :: stack, mode⟩ = none := by
  cases mode <;> rfl

theorem stepAfter_space {st : State} {c : Char} (hc : isSpace c = true)
    (hmode : st.mode = .after ∨ ∃ value, st.mode = .done value) : stepAfter st c = some st := by
  rcases hmode with hmode | ⟨value, hmode⟩ <;> simp [stepAfter, hmode, hc]

/-- White space ends a number. -/
theorem number_space {stack : List Frame} {num : NumberState} {lexeme : List Char} {c : Char}
    (hc : isSpace c = true) : (step ⟨stack, .number num lexeme⟩ c).bind finish =
      finish ⟨stack, .number num lexeme⟩ := by
  have hnext : num.next c = none := by
    rcases isSpace_cases hc with rfl | rfl | rfl | rfl <;> cases num <;> rfl
  rw [step]
  dsimp only
  rw [hnext]
  dsimp only
  cases hfinal : num.final with
  | false => cases stack <;> simp [finish, hfinal]
  | true =>
      rw [if_pos rfl]
      cases stack with
      | nil =>
          rw [complete, Option.bind_some, stepAfter_space hc (.inr ⟨_, rfl⟩)]
          simp [finish, hfinal]
      | cons f stack =>
          rw [finish_cons]
          cases f with
          | array items | member members key =>
              rw [complete, Option.bind_some, stepAfter_space hc (.inl rfl), Option.bind_some,
                finish_cons]
          | object members => rfl

/-- White space leaves a text as complete as it is. -/
theorem step_space {st : State} {c : Char} (hl : st.Literal) (hc : isSpace c = true) :
    (step st c).bind finish = finish st := by
  have hne : ∀ d, isSpace d = false → c ≠ d := by
    intro d hd heq
    rw [heq, hd] at hc
    cases hc
  obtain ⟨stack, mode⟩ := st
  cases mode with
  | value | element | firstKey | key | colon => simp [step, hc]
  | after => rw [step, stepAfter_space hc (.inl rfl), Option.bind_some]
  | done value => rw [step, stepAfter_space hc (.inr ⟨value, rfl⟩), Option.bind_some]
  | string isKey units =>
      rw [step]
      dsimp only
      rw [if_neg (hne '"' (by decide)), if_neg (hne '\\' (by decide))]
      split_ifs <;> cases stack <;> rfl
  | escape isKey units =>
      rw [step]
      dsimp only
      rw [if_neg (hne 'u' (by decide))]
      cases escapeUnit c <;> cases stack <;> rfl
  | unicode isKey units digits code =>
      rw [step]
      cases hexDigit? c with
      | none => cases stack <;> rfl
      | some d =>
          dsimp only [Option.map_some, Option.bind_some]
          split_ifs <;> cases stack <;> rfl
  | number num lexeme => exact number_space hc
  | literal rest value =>
      have hletter : ∀ d ∈ rest, c ≠ d := by
        intro d hd
        refine hne d (Bool.eq_false_iff.mpr fun hs => ?_)
        have hd := (hl _ _ rfl d hd).1
        rcases isSpace_cases hs with rfl | rfl | rfl | rfl <;> simp at hd
      rw [step]
      dsimp only
      split
      · cases stack <;> rfl
      · rw [if_neg (hletter _ (List.mem_singleton_self _))]
        cases stack <;> rfl
      · rw [if_neg (hletter _ List.mem_cons_self)]
        cases stack <;> rfl

/-- **White space at the end changes nothing.** -/
theorem parse_spaces (cs : List Char) {ds : List Char} (hds : ds.all isSpace = true) :
    parse (cs ++ ds) = parse cs := by
  have hrest : ∀ st : State, st.Literal → (ds.foldlM step st).bind finish = finish st := by
    induction ds with
    | nil => exact fun st _ => rfl
    | cons d ds ih =>
        rw [List.all_cons, Bool.and_eq_true] at hds
        intro st hl
        rw [List.foldlM_cons, ← step_space hl hds.1]
        cases hstep : step st d with
        | none => rfl
        | some u => exact ih hds.2 u (step_literal hl hstep)
  rw [parse, parse, List.foldlM_append]
  cases hcs : cs.foldlM step ⟨[], .value⟩ with
  | none => rfl
  | some st => exact hrest st (foldlM_literal init_literal hcs)

/-- Behind a document, only white space is read. -/
theorem foldlM_done (value : Json) (ds : List Char) : ds.foldlM step ⟨[], .done value⟩ =
    if ds.all isSpace then some ⟨[], .done value⟩ else none := by
  induction ds with
  | nil => rfl
  | cons d ds ih =>
      have hstep : step ⟨[], .done value⟩ d =
          if isSpace d then some ⟨[], .done value⟩ else none := rfl
      rw [List.foldlM_cons, hstep, List.all_cons]
      cases isSpace d with
      | true => exact ih
      | false => rfl

/-- **What may follow a document** that is no number: white space. -/
theorem parse_append {cs : List Char} {doc : Json} (h : parse cs = some doc)
    (hdoc : ∀ lexeme, doc ≠ .number lexeme) (ds : List Char) :
    parse (cs ++ ds) = if ds.all isSpace then some doc else none := by
  obtain ⟨st, hst, hfinish⟩ := Option.bind_eq_some_iff.mp h
  have hdone : st = ⟨[], .done doc⟩ := by
    obtain ⟨stack, mode⟩ := st
    unfold finish at hfinish
    split at hfinish
    · rename_i hstack hmode
      simp only at hstack hmode
      rw [hstack, hmode, Option.some.inj hfinish]
    · split_ifs at hfinish
      exact absurd (Option.some.inj hfinish).symm (hdoc _)
    · cases hfinish
  rw [parse, List.foldlM_append, hst]
  change (ds.foldlM step st).bind finish = _
  rw [hdone, foldlM_done]
  split_ifs <;> rfl

/-! ### Byte strings -/

open GoJson

/-- The white space of JSON. -/
def isSpaceByte (b : UInt8) : Bool := b = 32 || b = 9 || b = 10 || b = 13

theorem isSpaceByte_ascii {b : UInt8} (h : isSpaceByte b = true) : b.toNat < 0x80 := by
  simp only [isSpaceByte, Bool.or_eq_true, decide_eq_true_eq] at h
  rcases h with ((rfl | rfl) | rfl) | rfl <;> simp

theorem isSpace_ofNat {b : UInt8} (h : b.toNat < 0x80) :
    isSpace (Char.ofNat b.toNat) = isSpaceByte b := by
  have hall : ∀ n < 0x80, isSpace (Char.ofNat n) = isSpaceByte (UInt8.ofNat n) := by decide
  rw [hall _ h, UInt8.ofNat_toNat]

/-- A text is white space if its bytes are. -/
theorem all_isSpace_runes (s : Bytes) : (runes 0 s).all isSpace = s.all isSpaceByte := by
  have hbyte : ∀ {b : UInt8}, 0x80 ≤ b.toNat → isSpaceByte b = false := fun hge =>
    Bool.eq_false_iff.mpr fun hs => absurd (isSpaceByte_ascii hs) (Nat.not_lt.mpr hge)
  have hchar : ∀ {c : Char}, 0x80 ≤ c.toNat → isSpace c = false := fun hge =>
    Bool.eq_false_iff.mpr fun hs => absurd (isSpace_ascii hs) (Nat.not_lt.mpr hge)
  induction s with
  | nil => rfl
  | cons b s ih =>
      rcases decodeRune_cases b s with ⟨hlt, -⟩ | ⟨hge, hinv⟩ | ⟨c, bs, rest, heq, henc⟩
      · rw [runes_ascii hlt, List.all_cons, List.all_cons, ih, isSpace_ofNat hlt]
      · rw [runes_invalid hinv, List.all_cons, List.all_cons, hbyte hge, hchar (by decide)]
        rfl
      · have hb : b ∈ bs := by
          have hlen := henc.length
          cases bs with
          | nil => cases hlen
          | cons x bs =>
              rw [(List.cons.inj heq).1]
              exact List.mem_cons_self
        rw [List.all_cons, hbyte (henc.bytes_not_ascii b hb), heq, henc.spells.read,
          List.singleton_append, List.all_cons, hchar henc.not_ascii]
        rfl

/-- White space behind a byte string changes nothing. -/
theorem parse_runes_spaces (s : Bytes) {t : Bytes} (ht : t.all isSpaceByte = true) :
    parse (runes 0 (s ++ t)) = parse (runes 0 s) := by
  have hhead : ∀ b, t.head? = some b → b.toNat < 0x80 := fun b hb =>
    isSpaceByte_ascii (List.all_eq_true.mp ht b (List.mem_of_head? hb))
  rw [runes_append (.inr hhead), parse_spaces _ (by rw [all_isSpace_runes, ht])]

/-- Behind a document that is no number, only white space may follow. -/
theorem parse_runes_append {s : Bytes} {doc : Json} (h : parse (runes 0 s) = some doc)
    (hdoc : ∀ lexeme, doc ≠ .number lexeme) (t : Bytes) :
    parse (runes 0 (s ++ t)) = if t.all isSpaceByte then some doc else none := by
  have hlast : ∀ b, s.getLast? = some b → b.toNat < 0x80 := by
    intro b hb
    by_contra hno
    obtain ⟨c, hc, hge⟩ := getLast?_runes hb (Nat.le_of_not_lt hno)
    exact absurd (ascii_of_parse h hc) (Nat.not_lt.mpr hge)
  rw [runes_append (.inl hlast), parse_append h hdoc, all_isSpace_runes]

end Lib.JsonParse
