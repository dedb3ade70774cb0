import LoopzToken.Lib.Family
import LoopzToken.Payment.Loop

/-!
# LoopzToken.Payment.Log

The mock provider against the log of its calls. What a call returns is told by the earlier
calls alone (`replyOf`): a query reports the last notification of its order, whatever was
created, notified for other orders or refunded in between; a refund succeeds each time; and
a created payment is numbered by the payments created before. `reply_eq_replyOf` says that
the provider answers so in every run.

The numbers never repeat, so no two ids that a provider hands out are equal
(`ids_nodup`), whatever the order numbers are.
-/

namespace LoopzToken.Payment

open Lib Machine TextDecoder

/-! ### Replies -/

/-- What a call returns. -/
inductive Reply
  | created (result : PaymentResult)
  | notified (result : Except String PaymentNotification)
  | status (status : PaymentStatus)
  | refunded (result : RefundResult)

def MockPaymentProvider.reply (s : MockPaymentProvider) : Call → Reply
  | .createPayment order => .created (s.createPayment order).2
  | .verifyNotification raw => .notified (s.verifyNotification raw).2
  | .queryPayment orderNo => .status (s.queryPayment orderNo)
  | .refund request => .refunded (s.refund request).2

/-! ### The log -/

/-- The payment of the order `o` that the call notifies. -/
def Call.notifies (o : JsString) : Call → Option PaidEntry
  | .verifyNotification raw =>
      match parseNotification raw with
      | some (orderNo, payment) => if orderNo = o then some payment else none
      | none => none
  | _ => none

def Call.isCreate : Call → Bool
  | .createPayment _ => true
  | _ => false

/-- What a call returns after the calls `log`, the newest first. -/
def replyOf (log : List Call) : Call → Reply
  | .createPayment order =>
      let created := 3 * log.countP Call.isCreate
      .created
        { attemptId := ascii "mock-attempt-" ++ numeral (created + 2)
          prepayId := ascii "mock-prepay-" ++ numeral (created + 3)
          qrCodeContent := ascii "mock://" ++ order.orderNo ++ ascii "/" ++
            (ascii "mock-pay-" ++ numeral (created + 1)) }
  | .verifyNotification raw =>
      match parseNotification raw with
      | none => .notified (.error "mock payment notification verify failed")
      | some (orderNo, payment) =>
          .notified (.ok ⟨orderNo, payment.providerPaymentId, payment.amountMicros, .paid⟩)
  | .queryPayment orderNo =>
      match log.findSome? (Call.notifies orderNo) with
      | none => .status ⟨orderNo, .pending, none, none⟩
      | some payment =>
          .status ⟨orderNo, .paid, some payment.providerPaymentId, some payment.amountMicros⟩
  | .refund request => .refunded ⟨request.refundNo, .success⟩

/-! ### What the provider keeps of the log -/

/-- What a run leaves in the provider. -/
structure Records (log : List Call) (s : MockPaymentProvider) : Prop where
  paid : ∀ o, s.paid o = log.findSome? (Call.notifies o)
  seq : s.seq = 3 * log.countP Call.isCreate

/-- What one call does to the entry of an order. -/
theorem call_paid_eq (s : MockPaymentProvider) (c : Call) (o : JsString) :
    (s.call c).paid o = (c.notifies o).or (s.paid o) := by
  cases c with
  | createPayment | queryPayment => rfl
  | refund request =>
      show (s.refund request).1.paid o = s.paid o
      unfold MockPaymentProvider.refund
      split <;> rfl
  | verifyNotification raw =>
      rw [MockPaymentProvider.call, MockPaymentProvider.verifyNotification, Call.notifies]
      cases parseNotification raw with
      | none => rfl
      | some r =>
          show Function.update s.paid r.1 (some r.2) o = (if r.1 = o then some r.2 else none).or _
          by_cases ho : r.1 = o
          · rw [if_pos ho, ← ho, Function.update_self]
            rfl
          · rw [if_neg ho, Function.update_of_ne (Ne.symm ho)]
            rfl

theorem call_seq (s : MockPaymentProvider) (c : Call) :
    (s.call c).seq = s.seq + 3 * c.isCreate.toNat := by
  cases c with
  | createPayment | queryPayment => rfl
  | refund request =>
      show (s.refund request).1.seq = s.seq
      unfold MockPaymentProvider.refund
      split <;> rfl
  | verifyNotification raw =>
      show (s.verifyNotification raw).1.seq = s.seq
      unfold MockPaymentProvider.verifyNotification
      split <;> rfl

theorem records {h : List (MockPaymentProvider × Call)} {s : MockPaymentProvider}
    (hr : mock.Run .new h s) : Records (h.map (·.2)) s := by
  induction hr with
  | refl => exact ⟨fun _ => rfl, rfl⟩
  | @step h t u c hr hs ih =>
      obtain rfl := Option.some.inj hs
      refine ⟨fun o => ?_, ?_⟩
      · rw [call_paid_eq, ih.paid, List.map_cons, List.findSome?_cons]
        cases c.notifies o <;> rfl
      · rw [call_seq, ih.seq, List.map_cons, countP_cons_toNat, Nat.mul_add]

/-- **The provider answers from the log.** In every run, every call returns what the earlier
calls say. -/
theorem reply_eq_replyOf {h : List (MockPaymentProvider × Call)} {s : MockPaymentProvider}
    (hr : mock.Run .new h s) (c : Call) : s.reply c = replyOf (h.map (·.2)) c := by
  have hrec := records hr
  cases c with
  | createPayment order =>
      rw [MockPaymentProvider.reply, MockPaymentProvider.createPayment, hrec.seq]
      rfl
  | verifyNotification raw =>
      rw [MockPaymentProvider.reply, MockPaymentProvider.verifyNotification, replyOf]
      cases parseNotification raw <;> rfl
  | queryPayment o =>
      rw [MockPaymentProvider.reply, MockPaymentProvider.queryPayment, hrec.paid, replyOf]
      cases (h.map (·.2)).findSome? (Call.notifies o) <;> rfl
  | refund request =>
      rw [MockPaymentProvider.reply, MockPaymentProvider.refund, replyOf]
      split <;> rfl

/-! ### The ids -/

/-- The results of the payments created in a run, the newest first. -/
def results (h : List (MockPaymentProvider × Call)) : List PaymentResult :=
  h.filterMap fun p => match p.2 with
    | .createPayment order => some (p.1.createPayment order).2
    | _ => none

/-- The ids that a payment is given. -/
def PaymentResult.ids (result : PaymentResult) : List JsString :=
  [result.prepayId, result.attemptId, result.providerPaymentId]

/-- The code unit `-`. -/
def dash : UInt16 := 45

/-- The number at the end of an id. -/
def idNumber (id : JsString) : ℕ := BigInt.value (afterLast dash id)

theorem idNumber_append (text : JsString) (n : ℕ) :
    idNumber (text ++ [dash] ++ numeral n) = n := by
  have hdash : dash ∉ numeral n := fun h => absurd (numeral_digit h) (by decide)
  rw [idNumber, List.append_assoc, List.singleton_append, afterLast_append _ hdash]
  exact BigInt.value_numeral n

theorem idNumbers_createPayment (s : MockPaymentProvider) (order : PaymentOrder) :
    (s.createPayment order).2.ids.map idNumber = [s.seq + 3, s.seq + 2, s.seq + 1] := by
  have hprepay : ascii "mock-prepay-" = ascii "mock-prepay" ++ [dash] := by decide +kernel
  have hattempt : ascii "mock-attempt-" = ascii "mock-attempt" ++ [dash] := by decide +kernel
  have hpay : ascii "mock-pay-" = ascii "mock-pay" ++ [dash] := by decide +kernel
  rw [PaymentResult.ids, providerPaymentId_createPayment, MockPaymentProvider.createPayment]
  simp only [hprepay, hattempt, hpay, List.map_cons, List.map_nil, idNumber_append]

/-- The numbers count down to one. -/
theorem idNumbers {h : List (MockPaymentProvider × Call)} {s : MockPaymentProvider}
    (hr : mock.Run .new h s) :
    ((results h).flatMap PaymentResult.ids).map idNumber = (List.range' 1 s.seq).reverse := by
  induction hr with
  | refl => rfl
  | @step h t u c hr hs ih =>
      obtain rfl := Option.some.inj hs
      cases c with
      | createPayment order =>
          show ((t.createPayment order).2.ids ++ (results h).flatMap PaymentResult.ids).map
            idNumber = (List.range' 1 (t.seq + 3)).reverse
          rw [List.map_append, idNumbers_createPayment, ih]
          simp [List.range'_concat, Nat.add_comm 1]
      | verifyNotification | queryPayment | refund =>
          rw [call_seq]
          exact ih

/-- **No id is given twice**, in any run, whatever the order numbers are. -/
theorem ids_nodup {h : List (MockPaymentProvider × Call)} {s : MockPaymentProvider}
    (hr : mock.Run .new h s) : ((results h).flatMap PaymentResult.ids).Nodup := by
  refine List.Nodup.of_map idNumber ?_
  rw [idNumbers hr]
  exact List.nodup_reverse.mpr List.nodup_range'

/-- Two payments of one order, a notification, and a refund that is asked for twice. -/
def createdTwice : List Call :=
  [.createPayment ⟨ascii "o1", ascii "100"⟩, .createPayment ⟨ascii "o1", ascii "100"⟩,
   .verifyNotification (utf8 "mock.o1.mock-pay-4.100"), .refund ⟨ascii "o1", ascii "r1"⟩,
   .refund ⟨ascii "o1", ascii "r1"⟩]

theorem createdTwice_reply :
    ∃ h s, mock.Run .new h s ∧ s.queryPayment (ascii "o1") =
        ⟨ascii "o1", .paid, some (ascii "mock-pay-4"), some (ascii "100")⟩ ∧
      s.reply (.queryPayment (ascii "o1")) =
        replyOf (h.map (·.2)) (.queryPayment (ascii "o1")) := by
  obtain ⟨h, s, hr, hp⟩ := mock.exists_run_of_exec createdTwice
    (fun _ s => s.queryPayment (ascii "o1") =
      ⟨ascii "o1", .paid, some (ascii "mock-pay-4"), some (ascii "100")⟩) (by decide +kernel)
  exact ⟨h, s, hr, of_decide_eq_true hp, reply_eq_replyOf hr _⟩

theorem createdTwice_ids :
    ∃ h s, mock.Run .new h s ∧ (results h).length = 2 ∧
      ((results h).flatMap PaymentResult.ids).Nodup := by
  obtain ⟨h, s, hr, hp⟩ := mock.exists_run_of_exec createdTwice
    (fun h _ => (results h).length = 2) (by decide +kernel)
  exact ⟨h, s, hr, of_decide_eq_true hp, ids_nodup hr⟩

end LoopzToken.Payment
