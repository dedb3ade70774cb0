import LoopzToken.Lib.Split
import LoopzToken.Lib.Zod
import LoopzToken.Payment.Paid

/-!
# LoopzToken.Payment.Notification

The format of raw notifications, `mock.<orderNo>.<providerPaymentId>.<amountMicros>`.

`verifyNotification` counts the parts of the text and looks at the first one. It
accepts every documented notification, and beyond these exactly the texts of four
parts whose order number or payment id is empty or whose amount is no decimal string
(`verifyNotification_documented_iff`).
-/

namespace LoopzToken.Payment

open Lib TextDecoder

/-- The code unit `.`. -/
def dot : UInt16 := 46

theorem ascii_dot : ascii "." = [dot] := by decide +kernel

theorem ascii_mock_dot : ascii "mock." = ascii "mock" ++ [dot] := by decide +kernel

/-- A micro-CNY decimal string, as the contract has it: one or more ASCII digits. -/
def IsMicros (text : JsString) : Prop := Zod.Check.digits.passes text = true

instance (text : JsString) : Decidable (IsMicros text) := inferInstanceAs (Decidable (_ = true))

/-- A text of the documented format, with its fields. -/
structure IsNotification (text orderNo providerPaymentId amountMicros : JsString) : Prop where
  eq : text =
    ascii "mock." ++ orderNo ++ ascii "." ++ providerPaymentId ++ ascii "." ++ amountMicros
  orderNo_ne_nil : orderNo ≠ []
  providerPaymentId_ne_nil : providerPaymentId ≠ []
  dot_not_mem_orderNo : dot ∉ orderNo
  dot_not_mem_providerPaymentId : dot ∉ providerPaymentId
  micros : IsMicros amountMicros

/-- In the state `s`, the notification `raw` is taken exactly if it is of the documented
format, with the fields it has; otherwise it is refused and nothing changes. -/
structure Documented (s : MockPaymentProvider) (raw : Bytes) : Prop where
  accepts : ∀ orderNo providerPaymentId amountMicros,
    IsNotification (trim (decode raw)) orderNo providerPaymentId amountMicros →
    s.verifyNotification raw =
      ({ s with paid := Function.update s.paid orderNo (some ⟨providerPaymentId, amountMicros⟩) },
        .ok ⟨orderNo, providerPaymentId, amountMicros, .paid⟩)
  refuses : (∀ orderNo providerPaymentId amountMicros,
    ¬ IsNotification (trim (decode raw)) orderNo providerPaymentId amountMicros) →
    ∃ message, s.verifyNotification raw = (s, .error message)

/-- Four parts, of which the first is `mock`, but with an empty order number or payment id
or an amount that is no decimal string. -/
def Loose (text : JsString) : Prop :=
  ∃ orderNo providerPaymentId amountMicros,
    text.splitOn dot = [ascii "mock", orderNo, providerPaymentId, amountMicros] ∧
      (orderNo = [] ∨ providerPaymentId = [] ∨ ¬ IsMicros amountMicros)

/-! ### The parts of a text -/

theorem parseNotification_eq_some {raw : Bytes} {o : JsString} {entry : PaidEntry} :
    parseNotification raw = some (o, entry) ↔ (trim (decode raw)).splitOn dot =
      [ascii "mock", o, entry.providerPaymentId, entry.amountMicros] := by
  have hdot : dot = 46 := rfl
  rw [hdot]
  unfold parseNotification
  split
  · rename_i name orderNo id amount hsplit
    cases entry
    by_cases hname : name = ascii "mock"
    · simp [hsplit, hname]
    · simp [hsplit, hname]
  · rename_i hne
    constructor
    · intro h
      cases h
    · intro h
      exact absurd h (hne _ _ _ _)

theorem dot_not_mem_of_isMicros {text : JsString} (h : IsMicros text) : dot ∉ text := by
  intro hmem
  exact absurd ((Zod.Check.digits_passes.mp h).2 _ hmem) (by decide)

/-- The documented texts, by their parts. -/
theorem isNotification_iff {text o id amount : JsString} :
    IsNotification text o id amount ↔ text.splitOn dot = [ascii "mock", o, id, amount] ∧
      o ≠ [] ∧ id ≠ [] ∧ IsMicros amount := by
  have hmock : dot ∉ ascii "mock" := by decide +kernel
  rw [splitOn_eq_four]
  constructor
  · intro h
    refine ⟨⟨?_, hmock, h.dot_not_mem_orderNo, h.dot_not_mem_providerPaymentId,
      dot_not_mem_of_isMicros h.micros⟩, h.orderNo_ne_nil, h.providerPaymentId_ne_nil, h.micros⟩
    rw [h.eq, ascii_mock_dot, ascii_dot]
    simp
  · intro h
    obtain ⟨⟨rfl, -, ho, hid, -⟩, ho', hid', hamount⟩ := h
    exact ⟨by rw [ascii_mock_dot, ascii_dot]; simp, ho', hid', ho, hid, hamount⟩

theorem Loose.not_isNotification {text : JsString} (h : Loose text) (o id amount : JsString) :
    ¬ IsNotification text o id amount := by
  intro hn
  obtain ⟨o', id', amount', hsplit', hbad⟩ := h
  obtain ⟨hsplit, ho, hid, hamount⟩ := isNotification_iff.mp hn
  obtain ⟨rfl, rfl, rfl⟩ : o = o' ∧ id = id' ∧ amount = amount' := by
    simpa using hsplit.symm.trans hsplit'
  rcases hbad with hbad | hbad | hbad
  · exact ho hbad
  · exact hid hbad
  · exact hbad hamount

/-! ### What is accepted -/

/-- A loose text is taken, and documented ones alone should be. -/
theorem Loose.not_documented {s : MockPaymentProvider} {raw : Bytes}
    (h : Loose (trim (decode raw))) : ¬ Documented s raw := by
  intro hdoc
  obtain ⟨message, herr⟩ := hdoc.refuses h.not_isNotification
  obtain ⟨o, id, amount, hsplit, -⟩ := h
  have hparse : parseNotification raw = some (o, ⟨id, amount⟩) :=
    parseNotification_eq_some.mpr hsplit
  rw [verifyNotification_eq hparse] at herr
  exact absurd (congrArg Prod.snd herr) (by simp)

/-- **When exactly the documented notifications are accepted.** In every state, the
byte sequences on which `verifyNotification` departs from its documentation are those
whose text is loose. -/
theorem verifyNotification_documented_iff (s : MockPaymentProvider) (raw : Bytes) :
    Documented s raw ↔ ¬ Loose (trim (decode raw)) := by
  constructor
  · exact fun h hloose => hloose.not_documented h
  · intro hstrict
    refine ⟨fun o id amount hn => ?_, fun hno => ?_⟩
    · have hparse : parseNotification raw = some (o, ⟨id, amount⟩) :=
        parseNotification_eq_some.mpr (isNotification_iff.mp hn).1
      rw [verifyNotification_eq hparse]
    · cases hparse : parseNotification raw with
      | none => exact ⟨_, by rw [MockPaymentProvider.verifyNotification, hparse]⟩
      | some r =>
          -- four parts that are not of the format would be loose
          have hsplit := parseNotification_eq_some.mp hparse
          have hno' := fun h => hno _ _ _ (isNotification_iff.mpr ⟨hsplit, h⟩)
          refine absurd ⟨_, _, _, hsplit, ?_⟩ hstrict
          by_contra hgood
          simp only [not_or, not_not] at hgood
          exact hno' hgood

/-- A payment of a negative amount for the order `o1`. -/
def negativeAmount : Bytes := utf8 "mock.o1.p1.-5"

theorem negativeAmount_accepted :
    (MockPaymentProvider.new.verifyNotification negativeAmount).2 =
        .ok ⟨ascii "o1", ascii "p1", ascii "-5", .paid⟩ ∧
      ¬ Documented .new negativeAmount := by
  have hloose : Loose (trim (decode negativeAmount)) :=
    ⟨ascii "o1", ascii "p1", ascii "-5", by decide +kernel, .inr (.inr (by decide +kernel))⟩
  exact ⟨by decide +kernel, hloose.not_documented⟩

end LoopzToken.Payment
