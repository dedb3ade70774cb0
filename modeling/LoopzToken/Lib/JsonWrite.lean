import LoopzToken.Lib.JsonParse

/-!
# Lib.JsonWrite

What the machine of `Lib.JsonParse` makes of texts as JSON writers produce them:
without white space between the tokens, and with strings whose escapes are the
writer's choice.

A text `Quotes` some code units if it spells them between the quotes of a string, and
`Denotes` a document if reading it completes a value, whatever is open around it. The
texts of the members make the text of the object (`denotes_object`).
-/

namespace Lib.JsonParse

/-! ### Strings -/

/-- The text spells the code units, between the quotes of a string. -/
inductive Quotes : List Char → JsonText → Prop
  | nil : Quotes [] []
  /-- A character that needs no escape. -/
  | raw {c : Char} {cs : List Char} {units : JsonText} (hquote : c ≠ '"') (hback : c ≠ '\\')
      (hctrl : 32 ≤ c.toNat) (h : Quotes cs units) : Quotes (c :: cs) (charUnits c ++ units)
  | escape {c : Char} {u : UInt16} {cs : List Char} {units : JsonText}
      (hunit : escapeUnit c = some u) (h : Quotes cs units) :
      Quotes ('\\' :: c :: cs) (u :: units)
  | unicode {c₁ c₂ c₃ c₄ : Char} {d₁ d₂ d₃ d₄ : ℕ} {cs : List Char} {units : JsonText}
      (h₁ : hexDigit? c₁ = some d₁) (h₂ : hexDigit? c₂ = some d₂) (h₃ : hexDigit? c₃ = some d₃)
      (h₄ : hexDigit? c₄ = some d₄) (h : Quotes cs units) :
      Quotes ('\\' :: 'u' :: c₁ :: c₂ :: c₃ :: c₄ :: cs)
        (UInt16.ofNat (16 * (16 * (16 * d₁ + d₂) + d₃) + d₄) :: units)

theorem Quotes.append {cs ds : List Char} {units units' : JsonText} (h : Quotes cs units)
    (h' : Quotes ds units') : Quotes (cs ++ ds) (units ++ units') := by
  induction h with
  | nil => exact h'
  | raw hquote hback hctrl _ ih =>
      rw [List.cons_append, List.append_assoc]
      exact .raw hquote hback hctrl ih
  | escape hunit _ ih => exact .escape hunit ih
  | unicode h₁ h₂ h₃ h₄ _ ih => exact .unicode h₁ h₂ h₃ h₄ ih

/-- The machine reads the code units. -/
theorem Quotes.read {cs : List Char} {units : JsonText} (h : Quotes cs units)
    (stack : List Frame) (isKey : Bool) (acc : JsonText) :
    cs.foldlM step ⟨stack, .string isKey acc⟩ =
      some ⟨stack, .string isKey (units.reverse ++ acc)⟩ := by
  induction h generalizing acc with
  | nil => rfl
  | @raw c cs units hquote hback hctrl h ih =>
      have hstep : step ⟨stack, .string isKey acc⟩ c =
          some ⟨stack, .string isKey ((charUnits c).reverse ++ acc)⟩ := by
        simp [step, hquote, hback, Nat.not_lt.mpr hctrl]
      rw [List.foldlM_cons, hstep, List.reverse_append, List.append_assoc]
      exact ih _
  | @escape c u cs units hunit h ih =>
      have hu : c ≠ 'u' := by
        intro heq
        subst heq
        cases hunit
      have hstep : step ⟨stack, .escape isKey acc⟩ c =
          some ⟨stack, .string isKey (u :: acc)⟩ := by
        simp [step, hu, hunit]
      rw [List.foldlM_cons]
      change (step ⟨stack, .escape isKey acc⟩ c).bind _ = _
      rw [hstep, List.reverse_cons, List.append_assoc]
      exact ih _
  | @unicode c₁ c₂ c₃ c₄ d₁ d₂ d₃ d₄ cs units h₁ h₂ h₃ h₄ h ih =>
      have hread : ['\\', 'u', c₁, c₂, c₃, c₄].foldlM step ⟨stack, .string isKey acc⟩ =
          some ⟨stack, .string isKey
            (UInt16.ofNat (16 * (16 * (16 * d₁ + d₂) + d₃) + d₄) :: acc)⟩ := by
        simp [List.foldlM_cons, step, h₁, h₂, h₃, h₄]
      rw [List.reverse_cons, List.append_assoc, List.singleton_append, ← ih]
      exact (List.foldlM_append (l := ['\\', 'u', c₁, c₂, c₃, c₄])).trans (by rw [hread]; rfl)

/-! ### Documents -/

/-- Reading the text completes the document, whatever is open around it. -/
def Denotes (cs : List Char) (doc : Json) : Prop :=
  ∀ stack, cs.foldlM step ⟨stack, .value⟩ = complete stack doc

/-- After a value, reading the text adds the members to the innermost object. -/
def DenotesMembers (cs : List Char) (members : List (JsonText × Json)) : Prop :=
  ∀ stack front, cs.foldlM step ⟨.object front :: stack, .after⟩ =
    some ⟨.object (members.reverse ++ front) :: stack, .after⟩

theorem foldlM_cons_of_step {st st' : State} {c : Char} (h : step st c = some st')
    (cs : List Char) : (c :: cs).foldlM step st = cs.foldlM step st' := by
  rw [List.foldlM_cons, h]
  rfl

theorem foldlM_append_of_read {st st' : State} {cs : List Char}
    (h : cs.foldlM step st = some st') (ds : List Char) :
    (cs ++ ds).foldlM step st = ds.foldlM step st' := by
  rw [List.foldlM_append, h]
  rfl

theorem foldlM_singleton (st : State) (c : Char) : [c].foldlM step st = step st c := by
  rw [List.foldlM_cons]
  exact bind_pure (step st c)

theorem denotes_string {cs : List Char} {units : JsonText} (h : Quotes cs units) :
    Denotes ('"' :: (cs ++ ['"'])) (.string units) := by
  intro stack
  have hopen : step ⟨stack, .value⟩ '"' = some ⟨stack, .string false []⟩ := rfl
  rw [foldlM_cons_of_step hopen, foldlM_append_of_read (h.read ..), foldlM_singleton,
    List.append_nil]
  exact congrArg (fun units => complete stack (.string units)) units.reverse_reverse

theorem denotes_bool (b : Bool) : Denotes (if b then "true" else "false").toList (.bool b) := by
  intro stack
  cases b with
  | false => exact foldlM_singleton ⟨stack, .literal ['e'] (.bool false)⟩ 'e'
  | true => exact foldlM_singleton ⟨stack, .literal ['e'] (.bool true)⟩ 'e'

theorem denotesMembers_nil : DenotesMembers [] [] := fun _ _ => rfl

/-- One more member in front: a comma, the key, a colon and the value. -/
theorem denotesMembers_cons {ks vs cs : List Char} {key : JsonText} {value : Json}
    {members : List (JsonText × Json)} (hk : Quotes ks key) (hv : Denotes vs value)
    (h : DenotesMembers cs members) :
    DenotesMembers (',' :: '"' :: (ks ++ '"' :: ':' :: (vs ++ cs))) ((key, value) :: members) := by
  intro stack front
  have hcomma : step ⟨.object front :: stack, .after⟩ ',' = some ⟨.object front :: stack, .key⟩ :=
    rfl
  have hopen : step ⟨.object front :: stack, .key⟩ '"' =
      some ⟨.object front :: stack, .string true []⟩ := rfl
  have hclose : step ⟨.object front :: stack, .string true (key.reverse ++ [])⟩ '"' =
      some ⟨.member front key :: stack, .colon⟩ := by
    simp [step]
  have hcolon : step ⟨.member front key :: stack, .colon⟩ ':' =
      some ⟨.member front key :: stack, .value⟩ := rfl
  rw [foldlM_cons_of_step hcomma, foldlM_cons_of_step hopen, foldlM_append_of_read (hk.read ..),
    foldlM_cons_of_step hclose, foldlM_cons_of_step hcolon, foldlM_append_of_read (hv _), h,
    List.reverse_cons, List.append_assoc]
  rfl

/-- The members make the object; the first of them stands without its comma. -/
theorem denotes_object {cs : List Char} {members : List (JsonText × Json)}
    (h : DenotesMembers (',' :: '"' :: cs) members) :
    Denotes ('\x7b' :: '"' :: (cs ++ ['\x7d'])) (.object members) := by
  intro stack
  have hopen : step ⟨stack, .value⟩ '\x7b' = some ⟨.object [] :: stack, .firstKey⟩ := rfl
  have hkey : step ⟨.object [] :: stack, .firstKey⟩ '"' =
      some ⟨.object [] :: stack, .string true []⟩ := rfl
  have hread : cs.foldlM step ⟨.object [] :: stack, .string true []⟩ =
      some ⟨.object members.reverse :: stack, .after⟩ := by
    rw [← List.append_nil members.reverse, ← h stack []]
    rfl
  rw [foldlM_cons_of_step hopen, foldlM_cons_of_step hkey, foldlM_append_of_read hread,
    foldlM_singleton]
  exact congrArg (fun members => complete stack (.object members)) members.reverse_reverse

theorem denotes_emptyObject : Denotes ['\x7b', '\x7d'] (.object []) :=
  fun stack => foldlM_singleton ⟨.object [] :: stack, .firstKey⟩ '\x7d'

/-- A text that denotes a document is parsed to it. -/
theorem parse_of_denotes {cs : List Char} {doc : Json} (h : Denotes cs doc) :
    parse cs = some doc := by
  rw [parse, h []]
  rfl

end Lib.JsonParse
