import LoopzToken.Lib.BigInt
import LoopzToken.Lib.TextEncoder
import LoopzToken.Payment.Notification

/-!
# LoopzToken.Payment.Loop

The simulated payment loop: an order is created, the payment id is taken from the QR
content, the notification of its payment is sent, and the order is queried, with calls
about other orders in between.

The order number travels unescaped in a text whose separator is the dot. The loop
closes for exactly the order numbers without one (`loop_closes_iff`).
-/

namespace LoopzToken.Payment

open Lib Machine TextDecoder TextEncoder

/-! ### The loop -/

/-- The code unit `/`. -/
def slash : UInt16 := 47

/-- The payment id of a created payment: what follows the last slash of the QR content. -/
def PaymentResult.providerPaymentId (result : PaymentResult) : JsString :=
  afterLast slash result.qrCodeContent

/-- The text of a notification. -/
def notificationText (orderNo providerPaymentId amountMicros : JsString) : JsString :=
  ascii "mock." ++ orderNo ++ ascii "." ++ providerPaymentId ++ ascii "." ++ amountMicros

/-- The notification of the payment of an order that was created in the state `s`. -/
def notice (s : MockPaymentProvider) (order : PaymentOrder) : Bytes :=
  encode (notificationText order.orderNo (s.createPayment order).2.providerPaymentId
    order.amountMicros)

/-- The calls of a history are about other orders. -/
def AboutOthers (orderNo : JsString) (h : List (MockPaymentProvider × Call)) : Prop :=
  ∀ p ∈ h, p.2.order ≠ some orderNo

/-- An order that is created in the state `s` is notified and reported as paid, with any
calls about other orders in between, and other orders are left alone. -/
structure LoopCloses (s : MockPaymentProvider) (order : PaymentOrder) : Prop where
  accepted : ∀ h t, mock.Run (s.createPayment order).1 h t → AboutOthers order.orderNo h →
    (t.verifyNotification (notice s order)).2 = .ok ⟨order.orderNo,
      (s.createPayment order).2.providerPaymentId, order.amountMicros, .paid⟩
  reported : ∀ h t, mock.Run (s.createPayment order).1 h t → AboutOthers order.orderNo h →
    ∀ h' t', mock.Run (t.verifyNotification (notice s order)).1 h' t' →
      AboutOthers order.orderNo h' → t'.queryPayment order.orderNo = ⟨order.orderNo, .paid,
        some (s.createPayment order).2.providerPaymentId, some order.amountMicros⟩
  others : ∀ o, o ≠ order.orderNo → (s.createPayment order).1.queryPayment o = s.queryPayment o ∧
    ∀ t : MockPaymentProvider,
      (t.verifyNotification (notice s order)).1.queryPayment o = t.queryPayment o

/-! ### The payment id -/

theorem numeral_digit {n : ℕ} {u : UInt16} (hu : u ∈ numeral n) :
    48 ≤ u.toNat ∧ u.toNat ≤ 57 :=
  BigInt.isDigit_of_mem_numeral hu

theorem not_mem_providerPaymentId {u : UInt16} (hu : u ∉ ascii "mock-pay-")
    (hu' : ¬ (48 ≤ u.toNat ∧ u.toNat ≤ 57)) (n : ℕ) : u ∉ ascii "mock-pay-" ++ numeral n := by
  intro h
  rcases List.mem_append.mp h with h | h
  · exact hu h
  · exact hu' (numeral_digit h)

/-- The payment id is read back from the QR content, whatever the order number. -/
theorem providerPaymentId_createPayment (s : MockPaymentProvider) (order : PaymentOrder) :
    (s.createPayment order).2.providerPaymentId = ascii "mock-pay-" ++ numeral (s.seq + 1) := by
  have hslash : ascii "/" = [slash] := by decide +kernel
  have hmem : slash ∉ ascii "mock-pay-" ++ numeral (s.seq + 1) :=
    not_mem_providerPaymentId (by decide +kernel) (by decide) _
  rw [PaymentResult.providerPaymentId, MockPaymentProvider.createPayment]
  dsimp only
  rw [hslash, List.append_assoc _ [slash], List.singleton_append, afterLast_append _ hmem]

/-! ### The text on the wire -/

/-- The provider reads the text that was sent. -/
theorem trim_decode_notice {s : MockPaymentProvider} {order : PaymentOrder}
    (hvalid : Valid order.orderNo) (hamount : IsMicros order.amountMicros) :
    trim (decode (notice s order)) = notificationText order.orderNo
      (s.createPayment order).2.providerPaymentId order.amountMicros := by
  obtain ⟨hne, hdigits⟩ := Zod.Check.digits_passes.mp hamount
  have hid : Valid (ascii "mock-pay-" ++ numeral (s.seq + 1)) := by
    refine .append (valid_of_all (by decide +kernel)) (valid_of_lt fun u hu => ?_)
    have hdigit := numeral_digit hu
    omega
  have hmicros : Valid order.amountMicros := by
    refine valid_of_lt fun u hu => ?_
    have hdigit := hdigits u hu
    omega
  have hhead : ascii "mock." = 109 :: ascii "ock." := by decide +kernel
  rw [notice, providerPaymentId_createPayment, decode_encode]
  · refine trim_eq_self ?_ ?_
    · rw [notificationText, hhead]
      intro u hu
      obtain rfl : 109 = u := by simpa using hu
      decide
    · -- the text ends with a digit of the amount
      intro u hu
      have hlast : u ∈ order.amountMicros := by
        rw [notificationText, List.getLast?_append_of_ne_nil _ hne] at hu
        exact List.mem_of_getLast? hu
      have hdigit := hdigits u hlast
      exact isSpace_eq_false (by omega) (by omega)
  · have hmock : Valid (ascii "mock.") := valid_of_all (by decide +kernel)
    have hdot : Valid (ascii ".") := valid_of_all (by decide +kernel)
    exact ((((hmock.append hvalid).append hdot).append hid).append hdot).append hmicros
  · rw [notificationText, hhead]
    simp

/-- What the provider makes of the text: the order and its payment, unless the order
number falls apart. -/
theorem parseNotification_notice {s : MockPaymentProvider} {order : PaymentOrder}
    (hvalid : Valid order.orderNo) (hamount : IsMicros order.amountMicros) :
    parseNotification (notice s order) =
      if dot ∈ order.orderNo then none
      else some (order.orderNo,
        ⟨(s.createPayment order).2.providerPaymentId, order.amountMicros⟩) := by
  have hid : dot ∉ (s.createPayment order).2.providerPaymentId := by
    rw [providerPaymentId_createPayment]
    exact not_mem_providerPaymentId (by decide +kernel) (by decide) _
  have htext := trim_decode_notice (s := s) hvalid hamount
  split
  · rename_i hmem
    -- three separators of the format, and at least one more
    cases hparse : parseNotification (notice s order) with
    | none => rfl
    | some r =>
        have hsplit := parseNotification_eq_some.mp hparse
        have hlen := congrArg List.length hsplit
        have hcount := List.count_pos_iff.mpr hmem
        rw [length_splitOn, htext, notificationText, ascii_mock_dot, ascii_dot] at hlen
        simp at hlen
        omega
  · rename_i hmem
    refine parseNotification_eq_some.mpr (splitOn_eq_four.mpr ⟨?_, by decide +kernel, hmem, hid,
      dot_not_mem_of_isMicros hamount⟩)
    rw [htext, notificationText, ascii_mock_dot, ascii_dot]
    simp

/-! ### Other orders -/

/-- Calls about other orders leave the entry of an order alone. -/
theorem AboutOthers.paid {o : JsString} {h : List (MockPaymentProvider × Call)}
    {s t : MockPaymentProvider} (hr : mock.Run s h t) (ho : AboutOthers o h) :
    t.paid o = s.paid o := by
  induction hr with
  | refl => rfl
  | @step h t u c hr hs ih =>
      obtain rfl := Option.some.inj hs
      obtain ⟨hc, ho⟩ := List.forall_mem_cons.mp ho
      rw [← ih ho]
      rcases call_paid t c with heq | ⟨raw, o', entry, rfl, hparse, heq⟩
      · rw [heq]
      · rw [heq, Function.update_of_ne]
        intro hoo
        subst hoo
        exact hc (by simp [Call.order, hparse])

/-! ### When the loop closes -/

/-- **The loop closes for the order numbers without a dot.** From every state of the
provider, for every valid Unicode order number and every decimal amount, whatever is
called about other orders in between. -/
theorem loop_closes_iff (s : MockPaymentProvider) (order : PaymentOrder)
    (hvalid : Valid order.orderNo) (hamount : IsMicros order.amountMicros) :
    LoopCloses s order ↔ dot ∉ order.orderNo := by
  have hparse := parseNotification_notice (s := s) hvalid hamount
  constructor
  · intro h hmem
    rw [if_pos hmem] at hparse
    have hacc := h.accepted [] _ .refl fun p hp => absurd hp List.not_mem_nil
    rw [MockPaymentProvider.verifyNotification, hparse] at hacc
    cases hacc
  · intro hmem
    rw [if_neg hmem] at hparse
    have hpaid : ∀ t : MockPaymentProvider,
        (t.verifyNotification (notice s order)).1.paid order.orderNo =
          some ⟨(s.createPayment order).2.providerPaymentId, order.amountMicros⟩ := by
      intro t
      rw [verifyNotification_eq hparse]
      exact Function.update_self ..
    refine ⟨fun h t _ _ => by rw [verifyNotification_eq hparse],
      fun h t _ _ h' t' hr ho => ?_, fun o ho => ⟨rfl, fun t => ?_⟩⟩
    · exact queryPayment_paid ((ho.paid hr).trans (hpaid t))
    · rw [verifyNotification_eq hparse]
      exact queryPayment_congr (Function.update_of_ne ho ..)

theorem loop_closes_o1 : LoopCloses .new ⟨ascii "o1", ascii "100"⟩ :=
  (loop_closes_iff .new ⟨ascii "o1", ascii "100"⟩ (valid_of_all (by decide +kernel))
    (by decide +kernel)).mpr (by decide +kernel)

/-- An order number with a dot. -/
def dottedOrder : PaymentOrder := ⟨ascii "2026.1", ascii "100"⟩

theorem dottedOrder_refused :
    (((MockPaymentProvider.new.createPayment dottedOrder).1.verifyNotification
        (utf8 "mock.2026.1.mock-pay-1.100")).2 =
      .error "mock payment notification verify failed") ∧
    notice .new dottedOrder = utf8 "mock.2026.1.mock-pay-1.100" ∧
    ¬ LoopCloses .new dottedOrder := by
  have hnotice : notice .new dottedOrder = utf8 "mock.2026.1.mock-pay-1.100" := by
    decide +kernel
  have hrefused : ((MockPaymentProvider.new.createPayment dottedOrder).1.verifyNotification
      (utf8 "mock.2026.1.mock-pay-1.100")).2 =
        .error "mock payment notification verify failed" := by decide +kernel
  refine ⟨hrefused, hnotice, fun h => ?_⟩
  have hacc := h.accepted [] _ .refl fun p hp => absurd hp List.not_mem_nil
  rw [hnotice, hrefused] at hacc
  cases hacc

end LoopzToken.Payment
