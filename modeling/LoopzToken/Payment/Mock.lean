import Mathlib.Logic.Function.Basic
import LoopzToken.Lib.Machine
import LoopzToken.Lib.TextDecoder

/-!
# LoopzToken.Payment.Mock

The mock payment provider. Its methods have no `await` in them, so a call runs to
its end before the next one starts, and a history of calls is a run of the machine
`mock`.
-/

namespace LoopzToken.Payment

open Lib TextDecoder

/-! ### Requests and results -/

structure PaymentOrder where
  orderNo : JsString
  amountMicros : JsString

structure PaymentResult where
  attemptId : JsString
  prepayId : JsString
  qrCodeContent : JsString
  deriving DecidableEq, Repr

inductive NotificationStatus
  | paid
  | refunded
  | unknown
  deriving DecidableEq, Repr

structure PaymentNotification where
  orderNo : JsString
  providerPaymentId : JsString
  paidAmountMicros : JsString
  status : NotificationStatus
  deriving DecidableEq, Repr

inductive OrderStatus
  | pending
  | paid
  | closed
  deriving DecidableEq, Repr

structure PaymentStatus where
  orderNo : JsString
  status : OrderStatus
  providerPaymentId : Option JsString
  paidAmountMicros : Option JsString
  deriving DecidableEq, Repr

structure RefundRequest where
  orderNo : JsString
  refundNo : JsString

inductive RefundStatus
  | submitted
  | success
  | failed
  deriving DecidableEq, Repr

structure RefundResult where
  refundNo : JsString
  status : RefundStatus
  deriving DecidableEq, Repr

/-! ### The provider -/

/-- An entry of the map `paid`. -/
structure PaidEntry where
  providerPaymentId : JsString
  amountMicros : JsString
  deriving DecidableEq, Repr

/-- The counter `seq` is a number of any size here; in the source it is exact below 2^53. -/
structure MockPaymentProvider where
  paid : JsString → Option PaidEntry
  refunded : List JsString
  seq : ℕ

/-- `new MockPaymentProvider()`. -/
def MockPaymentProvider.new : MockPaymentProvider := ⟨fun _ => none, [], 0⟩

/-- A number in a template literal. -/
def numeral (n : ℕ) : JsString := (Nat.toDigits 10 n).map fun c => UInt16.ofNat c.toNat

def MockPaymentProvider.createPayment (s : MockPaymentProvider) (order : PaymentOrder) :
    MockPaymentProvider × PaymentResult :=
  let providerPaymentId := ascii "mock-pay-" ++ numeral (s.seq + 1)
  ({ s with seq := s.seq + 3 },
    { attemptId := ascii "mock-attempt-" ++ numeral (s.seq + 2)
      prepayId := ascii "mock-prepay-" ++ numeral (s.seq + 3)
      qrCodeContent := ascii "mock://" ++ order.orderNo ++ ascii "/" ++ providerPaymentId })

/-- The order number and the payment that a raw notification names. -/
def parseNotification (raw : Bytes) : Option (JsString × PaidEntry) :=
  match (trim (decode raw)).splitOn 46 with
  | [name, orderNo, providerPaymentId, amountMicros] =>
      if name = ascii "mock" then some (orderNo, ⟨providerPaymentId, amountMicros⟩) else none
  | _ => none

/-- `verifyNotification`; the headers are not looked at. -/
def MockPaymentProvider.verifyNotification (s : MockPaymentProvider) (raw : Bytes) :
    MockPaymentProvider × Except String PaymentNotification :=
  match parseNotification raw with
  | none => (s, .error "mock payment notification verify failed")
  | some (orderNo, payment) =>
      ({ s with paid := Function.update s.paid orderNo (some payment) },
        .ok { orderNo := orderNo, providerPaymentId := payment.providerPaymentId,
              paidAmountMicros := payment.amountMicros, status := .paid })

def MockPaymentProvider.queryPayment (s : MockPaymentProvider) (orderNo : JsString) :
    PaymentStatus :=
  match s.paid orderNo with
  | none => ⟨orderNo, .pending, none, none⟩
  | some payment => ⟨orderNo, .paid, some payment.providerPaymentId, some payment.amountMicros⟩

def MockPaymentProvider.refund (s : MockPaymentProvider) (request : RefundRequest) :
    MockPaymentProvider × RefundResult :=
  if request.refundNo ∈ s.refunded then (s, ⟨request.refundNo, .success⟩)
  else ({ s with refunded := request.refundNo :: s.refunded }, ⟨request.refundNo, .success⟩)

/-! ### Histories of calls -/

inductive Call
  | createPayment (order : PaymentOrder)
  | verifyNotification (raw : Bytes)
  | queryPayment (orderNo : JsString)
  | refund (request : RefundRequest)

/-- What a call leaves behind. -/
def MockPaymentProvider.call (s : MockPaymentProvider) : Call → MockPaymentProvider
  | .createPayment order => (s.createPayment order).1
  | .verifyNotification raw => (s.verifyNotification raw).1
  | .queryPayment _ => s
  | .refund request => (s.refund request).1

/-- One provider; every call returns. -/
def mock : Machine MockPaymentProvider Call where
  init := .new
  step s c := some (s.call c)

end LoopzToken.Payment
