import LoopzToken.Lib.Hex

/-!
# Lib.Percent

Percent-encoding. `escape` writes the bytes a predicate selects as `%XX`,
`unescape` reads them back and fails on a `%` without two digits. `Reads` is the
graph of `unescape`, by which its properties are proved. Two of them carry the
round trips of paths: reading works segment by segment, since a separator is
neither `%` nor a digit (`Reads.split`), and it never makes a text longer, and
keeps its length only when there is nothing to decode (`Reads.length`).
-/

namespace Lib.Percent

/-- The byte `%`. -/
def percent : UInt8 := 37

/-- Read every `%XX` as the byte it stands for. -/
def unescape : Bytes → Option Bytes
  | [] => some []
  | c :: s =>
      if c = percent then
        match s with
        | a :: b :: s =>
            match Hex.value a, Hex.value b with
            | some hi, some lo => (unescape s).map (Hex.byte hi lo :: ·)
            | _, _ => none
        | _ => none
      else (unescape s).map (c :: ·)

/-- Write the bytes that `esc` selects as `%XX`. -/
def escape (esc : UInt8 → Bool) (s : Bytes) : Bytes :=
  s.flatMap fun c =>
    if esc c then [percent, Hex.upperDigit (c.toNat / 16), Hex.upperDigit (c.toNat % 16)] else [c]

/-! ### Reading -/

/-- `s` is read as `v`. -/
inductive Reads : Bytes → Bytes → Prop
  | nil : Reads [] []
  | plain {c : UInt8} {s v : Bytes} (hc : c ≠ percent) (h : Reads s v) : Reads (c :: s) (c :: v)
  | coded {a b : UInt8} {hi lo : ℕ} {s v : Bytes} (ha : Hex.value a = some hi)
      (hb : Hex.value b = some lo) (h : Reads s v) :
      Reads (percent :: a :: b :: s) (Hex.byte hi lo :: v)

theorem unescape_cons {c : UInt8} (hc : c ≠ percent) (s : Bytes) :
    unescape (c :: s) = (unescape s).map (c :: ·) := by
  rcases s with _ | ⟨a, _ | ⟨b, s⟩⟩ <;> simp [unescape, hc]

theorem unescape_iff {s v : Bytes} : unescape s = some v ↔ Reads s v := by
  constructor
  · intro h
    induction s using unescape.induct generalizing v with
    | case1 =>
        obtain rfl := Option.some.inj h
        exact .nil
    | case2 a b s hi lo hlo hhi ih =>
        simp only [unescape, if_pos, hhi, hlo, Option.map_eq_some_iff] at h
        obtain ⟨w, hw, rfl⟩ := h
        exact .coded hhi hlo (ih hw)
    | case3 a b s hno =>
        simp only [unescape, if_pos] at h
        cases h
    | case4 s hno =>
        rcases s with _ | ⟨a, _ | ⟨b, s⟩⟩
        · simp [unescape] at h
        · simp [unescape] at h
        · exact (hno a b s rfl).elim
    | case5 c s hc ih =>
        rw [unescape_cons hc] at h
        obtain ⟨w, hw, rfl⟩ := Option.map_eq_some_iff.mp h
        exact .plain hc (ih hw)
  · intro h
    induction h with
    | nil => rfl
    | plain hc _ ih => rw [unescape_cons hc, ih, Option.map_some]
    | coded ha hb _ ih => simp only [unescape, if_pos, ha, hb, ih, Option.map_some]

example : unescape (utf8 "a%2fb%2G") = none := by decide

example : unescape (utf8 "a%2fb") = some (utf8 "a/b") := by decide

theorem Reads.unique {s v w : Bytes} (h : Reads s v) (h' : Reads s w) : v = w :=
  Option.some.inj ((unescape_iff.mpr h).symm.trans (unescape_iff.mpr h'))

/-- A text without `%` is read as it is. -/
theorem Reads.refl {s : Bytes} (hs : percent ∉ s) : Reads s s := by
  induction s with
  | nil => exact .nil
  | cons c s ih =>
      obtain ⟨hc, hs⟩ := List.ne_and_not_mem_of_not_mem_cons hs
      exact .plain hc.symm (ih hs)

/-- Reading goes through a separator, which is neither `%` nor a digit. -/
theorem Reads.split {c : UInt8} (hc : Hex.value c = none) (hp : c ≠ percent) {s t v : Bytes}
    (h : Reads (s ++ c :: t) v) : ∃ x y, Reads s x ∧ Reads t y ∧ v = x ++ c :: y := by
  generalize hst : s ++ c :: t = st at h
  induction h generalizing s with
  | nil => simp at hst
  | @plain d st v hd h ih =>
      cases s with
      | nil =>
          obtain ⟨rfl, rfl⟩ := List.cons.inj hst
          exact ⟨[], v, .nil, h, rfl⟩
      | cons e s =>
          simp only [List.cons_append, List.cons.injEq] at hst
          obtain ⟨rfl, hst⟩ := hst
          obtain ⟨x, y, hx, hy, rfl⟩ := ih hst
          exact ⟨e :: x, y, .plain hd hx, hy, rfl⟩
  | @coded a b hi lo st v ha hb h ih =>
      -- the separator is none of the three bytes of a code
      rcases s with _ | ⟨e, _ | ⟨f, _ | ⟨g, s⟩⟩⟩ <;>
        simp only [List.nil_append, List.cons_append, List.cons.injEq] at hst
      · exact absurd hst.1 hp
      · obtain ⟨-, rfl, -⟩ := hst
        rw [hc] at ha
        cases ha
      · obtain ⟨-, -, rfl, -⟩ := hst
        rw [hc] at hb
        cases hb
      · obtain ⟨rfl, rfl, rfl, hst⟩ := hst
        obtain ⟨x, y, hx, hy, rfl⟩ := ih hst
        exact ⟨Hex.byte hi lo :: x, y, .coded ha hb hx, hy, rfl⟩

/-- Every code that is read makes the text shorter. -/
theorem Reads.length {s v : Bytes} (h : Reads s v) :
    v.length ≤ s.length ∧ (percent ∈ s → v.length < s.length) := by
  induction h with
  | nil => exact ⟨Nat.le_refl _, fun h => absurd h List.not_mem_nil⟩
  | plain hc _ ih =>
      refine ⟨Nat.succ_le_succ ih.1, fun hmem => ?_⟩
      rcases List.mem_cons.mp hmem with rfl | hmem
      · exact absurd rfl hc
      · exact Nat.succ_lt_succ (ih.2 hmem)
  | coded ha hb _ ih =>
      have := ih.1
      simp only [List.length_cons]
      omega

/-! ### Writing -/

variable {esc : UInt8 → Bool}

@[simp] theorem escape_append (s t : Bytes) :
    escape esc (s ++ t) = escape esc s ++ escape esc t := List.flatMap_append

theorem escape_cons_of_not {c : UInt8} (hc : esc c = false) (s : Bytes) :
    escape esc (c :: s) = c :: escape esc s := by
  simp [escape, hc]

/-- **What was written is read back**, as long as `%` itself is written as a code. -/
theorem reads_escape (hesc : esc percent = true) (s : Bytes) : Reads (escape esc s) s := by
  induction s with
  | nil => exact .nil
  | cons c s ih =>
      cases hc : esc c with
      | true =>
          have hb := c.toNat_lt
          have hcode := Reads.coded (Hex.value_upperDigit (n := c.toNat / 16) (by omega))
            (Hex.value_upperDigit (n := c.toNat % 16) (by omega)) ih
          rw [Hex.byte_div_mod] at hcode
          simpa [escape, hc] using hcode
      | false =>
          rw [escape_cons_of_not hc]
          refine .plain ?_ ih
          intro heq
          subst heq
          rw [hesc] at hc
          cases hc

/-- A byte of a written text is a byte left alone, or part of a code. -/
theorem mem_escape {c : UInt8} {s : Bytes} (h : c ∈ escape esc s) :
    (c ∈ s ∧ esc c = false) ∨ c = percent ∨ (Hex.value c).isSome = true := by
  obtain ⟨d, hd, hc⟩ := List.mem_flatMap.mp h
  have hb := d.toNat_lt
  split at hc
  · simp only [List.mem_cons, List.not_mem_nil, or_false] at hc
    rcases hc with rfl | rfl | rfl
    · exact .inr (.inl rfl)
    · exact .inr (.inr (by rw [Hex.value_upperDigit (by omega), Option.isSome_some]))
    · exact .inr (.inr (by rw [Hex.value_upperDigit (by omega), Option.isSome_some]))
  · rename_i hesc
    obtain rfl := List.mem_singleton.mp hc
    exact .inl ⟨hd, Bool.not_eq_true _ ▸ hesc⟩

/-- Writing keeps every separator it does not write as a code, and makes no new
ones. -/
theorem count_escape {c : UInt8} (hesc : esc c = false) (hc : Hex.value c = none)
    (hp : c ≠ percent) (s : Bytes) : (escape esc s).count c = s.count c := by
  induction s with
  | nil => rfl
  | cons d s ih =>
      have hd := d.toNat_lt
      cases hdesc : esc d with
      | true =>
          have hne : ∀ n, n < 16 → Hex.upperDigit n ≠ c := by
            intro n hn heq
            subst heq
            rw [Hex.value_upperDigit hn] at hc
            cases hc
          have hdc : d ≠ c := by
            intro heq
            subst heq
            rw [hesc] at hdesc
            cases hdesc
          have hcode : escape esc (d :: s) = percent :: Hex.upperDigit (d.toNat / 16) ::
              Hex.upperDigit (d.toNat % 16) :: escape esc s := by
            simp [escape, hdesc]
          rw [hcode, List.count_cons_of_ne hp.symm, List.count_cons_of_ne (hne _ (by omega)),
            List.count_cons_of_ne (hne _ (by omega)), List.count_cons_of_ne hdc, ih]
      | false => rw [escape_cons_of_not hdesc, List.count_cons, List.count_cons, ih]

end Lib.Percent
