import LoopzToken.Payment.Mock

/-!
# LoopzToken.Payment.Paid

**A paid order stays paid as it was**, and a payment id belongs to one order.

`verifyNotification` stores what it is told: it compares neither with the entry the
order has nor with the entries of other orders. So the mock keeps the promise along
a history exactly when the notifications do (`paid_stays_iff`): each one repeats what
is recorded for its order, if anything is, and names no payment of another order.
-/

namespace LoopzToken.Payment

open Lib Machine TextDecoder

/-! ### The promise -/

/-- The order a call is about. -/
def Call.order : Call → Option JsString
  | .createPayment order => some order.orderNo
  | .verifyNotification raw => (parseNotification raw).map (·.1)
  | .queryPayment orderNo => some orderNo
  | .refund request => some request.orderNo

/-- The call, made in the state `s`, accepts the notification `n`. -/
def Accepted (s : MockPaymentProvider) (c : Call) (n : PaymentNotification) : Prop :=
  ∃ raw, c = .verifyNotification raw ∧ (s.verifyNotification raw).2 = .ok n

/-- What a history must satisfy for paid orders to stay as they were. -/
structure PaidStays (h : List (MockPaymentProvider × Call)) (s : MockPaymentProvider) :
    Prop where
  /-- An order that was reported `PAID` is reported with the same payment and amount. -/
  stable : ∀ p ∈ h, ∀ o, (p.1.queryPayment o).status = .paid →
    s.queryPayment o = p.1.queryPayment o
  /-- The last call, if it notifies a paid order of another payment or amount, is
  refused and changes nothing. -/
  conflicting : ∀ t raw, h.head? = some (t, .verifyNotification raw) → ∀ o entry,
    parseNotification raw = some (o, entry) → (t.queryPayment o).status = .paid →
    ((t.queryPayment o).providerPaymentId ≠ some entry.providerPaymentId ∨
      (t.queryPayment o).paidAmountMicros ≠ some entry.amountMicros) →
    (∃ message, (t.verifyNotification raw).2 = .error message) ∧ s = t
  /-- The last call accepts no payment id that was accepted for a different order. -/
  unique : ∀ t c h', h = (t, c) :: h' → ∀ n, Accepted t c n → ∀ p ∈ h', ∀ n',
    Accepted p.1 p.2 n' → n'.providerPaymentId = n.providerPaymentId → n'.orderNo = n.orderNo
  /-- The last call leaves the status of every order it is not about alone. -/
  others : ∀ t c, h.head? = some (t, c) → ∀ o, c.order ≠ some o →
    s.queryPayment o = t.queryPayment o

/-- A notification repeats what is recorded for its order, if anything is, and names
no payment that is recorded for a different one. -/
def Consistent (s : MockPaymentProvider) : Call → Prop
  | .verifyNotification raw => ∀ o entry, parseNotification raw = some (o, entry) →
      (∀ old, s.paid o = some old → old = entry) ∧
        ∀ o' old, s.paid o' = some old → old.providerPaymentId = entry.providerPaymentId → o' = o
  | _ => True

/-! ### Single calls -/

theorem queryPayment_paid {s : MockPaymentProvider} {o : JsString} {entry : PaidEntry}
    (h : s.paid o = some entry) : s.queryPayment o =
      ⟨o, .paid, some entry.providerPaymentId, some entry.amountMicros⟩ := by
  rw [MockPaymentProvider.queryPayment, h]

theorem status_paid_iff {s : MockPaymentProvider} {o : JsString} :
    (s.queryPayment o).status = .paid ↔ ∃ entry, s.paid o = some entry := by
  unfold MockPaymentProvider.queryPayment
  cases s.paid o <;> simp

/-- The status of an order shows its entry. -/
theorem queryPayment_inj {s t : MockPaymentProvider} {o : JsString}
    (h : s.queryPayment o = t.queryPayment o) : s.paid o = t.paid o := by
  unfold MockPaymentProvider.queryPayment at h
  cases hs : s.paid o with
  | none => cases ht : t.paid o <;> simp_all
  | some entry =>
      cases ht : t.paid o with
      | none => simp_all
      | some entry' =>
          cases entry
          cases entry'
          simp_all

theorem queryPayment_congr {s t : MockPaymentProvider} {o : JsString}
    (h : s.paid o = t.paid o) : s.queryPayment o = t.queryPayment o := by
  rw [MockPaymentProvider.queryPayment, MockPaymentProvider.queryPayment, h]

theorem verifyNotification_eq {s : MockPaymentProvider} {raw : Bytes} {o : JsString}
    {entry : PaidEntry} (h : parseNotification raw = some (o, entry)) :
    s.verifyNotification raw =
      ({ s with paid := Function.update s.paid o (some entry) },
        .ok ⟨o, entry.providerPaymentId, entry.amountMicros, .paid⟩) := by
  rw [MockPaymentProvider.verifyNotification, h]

/-- Exactly the well-formed notifications are accepted. -/
theorem accepted_iff {s : MockPaymentProvider} {c : Call} {n : PaymentNotification} :
    Accepted s c n ↔ ∃ raw o entry, c = .verifyNotification raw ∧
      parseNotification raw = some (o, entry) ∧
      n = ⟨o, entry.providerPaymentId, entry.amountMicros, .paid⟩ := by
  constructor
  · intro h
    obtain ⟨raw, rfl, h⟩ := h
    cases hp : parseNotification raw with
    | none =>
        rw [MockPaymentProvider.verifyNotification, hp] at h
        cases h
    | some r =>
        rw [verifyNotification_eq hp] at h
        exact ⟨raw, r.1, r.2, rfl, hp, (Except.ok.inj h).symm⟩
  · intro h
    obtain ⟨raw, o, entry, rfl, hp, rfl⟩ := h
    exact ⟨raw, rfl, by rw [verifyNotification_eq hp]⟩

/-- What one call does to the entries. -/
theorem call_paid (s : MockPaymentProvider) (c : Call) :
    (s.call c).paid = s.paid ∨ ∃ raw o entry, c = .verifyNotification raw ∧
      parseNotification raw = some (o, entry) ∧
      (s.call c).paid = Function.update s.paid o (some entry) := by
  cases c with
  | createPayment | queryPayment => exact .inl rfl
  | refund request =>
      refine .inl ?_
      unfold MockPaymentProvider.call MockPaymentProvider.refund
      dsimp only
      split <;> rfl
  | verifyNotification raw =>
      cases hp : parseNotification raw with
      | none =>
          refine .inl ?_
          rw [MockPaymentProvider.call, MockPaymentProvider.verifyNotification, hp]
      | some r =>
          refine .inr ⟨raw, r.1, r.2, rfl, hp, ?_⟩
          rw [MockPaymentProvider.call, verifyNotification_eq hp]

/-- A consistent call keeps every entry. -/
theorem Consistent.keeps {s : MockPaymentProvider} {c : Call} (hc : Consistent s c)
    {o : JsString} {entry : PaidEntry} (h : s.paid o = some entry) :
    (s.call c).paid o = some entry := by
  rcases call_paid s c with heq | ⟨raw, o', entry', rfl, hp, heq⟩
  · rw [heq, h]
  · rw [heq]
    by_cases ho : o = o'
    · subst ho
      rw [Function.update_self, (hc o entry' hp).1 entry h]
    · rw [Function.update_of_ne ho, h]

/-! ### Entries and accepted notifications -/

/-- Every entry was accepted at some point. -/
theorem accepted_of_paid {h : List (MockPaymentProvider × Call)} {s : MockPaymentProvider}
    (hr : mock.Run .new h s) {o : JsString} {entry : PaidEntry} (hp : s.paid o = some entry) :
    ∃ p ∈ h, Accepted p.1 p.2 ⟨o, entry.providerPaymentId, entry.amountMicros, .paid⟩ := by
  induction hr with
  | refl => cases hp
  | @step h t u c hr hs ih =>
      obtain rfl := Option.some.inj hs
      have hold : t.paid o = some entry → ∃ p ∈ (t, c) :: h,
          Accepted p.1 p.2 ⟨o, entry.providerPaymentId, entry.amountMicros, .paid⟩ := by
        intro ht
        obtain ⟨p, hp, hacc⟩ := ih ht
        exact ⟨p, List.mem_cons_of_mem _ hp, hacc⟩
      rcases call_paid t c with heq | ⟨raw, o', entry', rfl, hparse, heq⟩
      · exact hold (heq ▸ hp)
      · rw [heq] at hp
        by_cases ho : o = o'
        · subst ho
          rw [Function.update_self] at hp
          obtain rfl := Option.some.inj hp
          exact ⟨_, List.mem_cons_self .., accepted_iff.mpr ⟨raw, o, entry', rfl, hparse, rfl⟩⟩
        · rw [Function.update_of_ne ho] at hp
          exact hold hp

/-- As long as paid orders stay as they were, every accepted notification is recorded. -/
theorem paid_of_accepted {h : List (MockPaymentProvider × Call)} {s : MockPaymentProvider}
    (hr : mock.Run .new h s) (hA : Always PaidStays h s) {p : MockPaymentProvider × Call}
    (hp : p ∈ h) {n : PaymentNotification} (hn : Accepted p.1 p.2 n) :
    s.paid n.orderNo = some ⟨n.providerPaymentId, n.paidAmountMicros⟩ := by
  induction hr with
  | refl => exact absurd hp List.not_mem_nil
  | @step h t u c hr hs ih =>
      obtain rfl := Option.some.inj hs
      rcases List.mem_cons.mp hp with rfl | hp
      · obtain ⟨raw, o, entry, hc, hparse, rfl⟩ := accepted_iff.mp hn
        obtain rfl : c = .verifyNotification raw := hc
        rw [MockPaymentProvider.call, verifyNotification_eq hparse]
        exact Function.update_self ..
      · have ht := ih hA.2 hp
        have hkeep := hA.1.stable (t, c) (List.mem_cons_self ..) n.orderNo
          (status_paid_iff.mpr ⟨_, ht⟩)
        rw [queryPayment_inj hkeep, ht]

/-! ### The step, in both directions -/

theorem PaidStays.step {h : List (MockPaymentProvider × Call)} {t : MockPaymentProvider}
    {c : Call} (hr : mock.Run .new h t) (hA : Always PaidStays h t) (hc : Consistent t c) :
    PaidStays ((t, c) :: h) (t.call c) := by
  have hkeep : ∀ o, (t.queryPayment o).status = .paid →
      (t.call c).queryPayment o = t.queryPayment o := by
    intro o ho
    obtain ⟨entry, hentry⟩ := status_paid_iff.mp ho
    exact queryPayment_congr ((hc.keeps hentry).trans hentry.symm)
  refine ⟨fun p hp o ho => ?_, fun t' raw hhead o entry hparse hpaid hdiff => ?_,
    fun t' c' h' heq n hn p hp n' hn' hid => ?_, fun t' c' hhead o ho => ?_⟩
  · rcases List.mem_cons.mp hp with rfl | hp
    · exact hkeep o ho
    · have ht := hA.head.stable p hp o ho
      rw [hkeep o (ht ▸ ho), ht]
  · -- a consistent call names the payment and the amount of a paid order
    obtain ⟨rfl, rfl⟩ := Prod.mk.inj (Option.some.inj hhead)
    obtain ⟨old, hold⟩ := status_paid_iff.mp hpaid
    obtain rfl := (hc o entry hparse).1 old hold
    rw [queryPayment_paid hold] at hdiff
    exact absurd hdiff (by simp)
  · obtain ⟨hpair, rfl⟩ := List.cons.inj heq
    obtain ⟨rfl, rfl⟩ := Prod.mk.inj hpair
    -- what was accepted before is still recorded, and the call is consistent with it
    have hrec := paid_of_accepted hr hA hp hn'
    obtain ⟨raw, o, entry, rfl, hparse, rfl⟩ := accepted_iff.mp hn
    exact (hc o entry hparse).2 _ _ hrec hid
  · obtain ⟨rfl, rfl⟩ := Prod.mk.inj (Option.some.inj hhead)
    refine queryPayment_congr ?_
    rcases call_paid t c with heq | ⟨raw, o', entry, rfl, hparse, heq⟩
    · rw [heq]
    · rw [heq, Function.update_of_ne]
      intro heq
      subst heq
      exact ho (by simp [Call.order, hparse])

theorem PaidStays.consistent {h : List (MockPaymentProvider × Call)} {t : MockPaymentProvider}
    {c : Call} (hr : mock.Run .new h t) (hs : PaidStays ((t, c) :: h) (t.call c)) :
    Consistent t c := by
  cases c with
  | createPayment | queryPayment | refund => trivial
  | verifyNotification raw =>
      intro o entry hparse
      refine ⟨fun old hold => ?_, fun o' old hold hid => ?_⟩
      · by_contra hne
        have hpaid := status_paid_iff.mpr ⟨old, hold⟩
        have hdiff : (t.queryPayment o).providerPaymentId ≠ some entry.providerPaymentId ∨
            (t.queryPayment o).paidAmountMicros ≠ some entry.amountMicros := by
          rw [queryPayment_paid hold]
          by_contra hsame
          obtain ⟨hid, hamount⟩ := not_or.mp hsame
          cases old
          cases entry
          simp_all
        obtain ⟨⟨message, herr⟩, -⟩ := hs.conflicting t raw rfl o entry hparse hpaid hdiff
        rw [verifyNotification_eq hparse] at herr
        cases herr
      · obtain ⟨p, hp, hacc⟩ := accepted_of_paid hr hold
        have hn : Accepted t (.verifyNotification raw)
            ⟨o, entry.providerPaymentId, entry.amountMicros, .paid⟩ :=
          accepted_iff.mpr ⟨raw, o, entry, rfl, hparse, rfl⟩
        -- the entry stems from a notification, whose payment this one names again
        exact hs.unique t _ h rfl _ hn p hp _ hacc hid

/-- **When paid orders stay as they were.** Along every history of calls on one
provider, the promise holds in every state if and only if every notification is
consistent with the entries it finds. -/
theorem paid_stays_iff {h : List (MockPaymentProvider × Call)} {s : MockPaymentProvider}
    (hr : mock.Run .new h s) : Always PaidStays h s ↔ ∀ p ∈ h, Consistent p.1 p.2 := by
  have h0 : PaidStays [] .new :=
    ⟨fun _ hp => absurd hp List.not_mem_nil, fun _ _ hh => (by cases hh),
      fun _ _ _ hh => (by cases hh), fun _ _ hh => (by cases hh)⟩
  refine hr.always_iff h0 fun h' t c v _ hrt hA hs => ?_
  obtain rfl := Option.some.inj hs
  exact ⟨fun hP => hP.consistent hrt, fun hc => .step hrt hA hc⟩

/-- An order is created and notified twice, with the same payment. -/
def notifiedTwice : List Call :=
  [.createPayment ⟨ascii "o1", ascii "100"⟩, .verifyNotification (utf8 "mock.o1.p1.100"),
   .verifyNotification (utf8 "mock.o1.p1.100\n"), .queryPayment (ascii "o1")]

theorem notifiedTwice_stays :
    ∃ h s, mock.Run .new h s ∧
      s.queryPayment (ascii "o1") = ⟨ascii "o1", .paid, some (ascii "p1"), some (ascii "100")⟩ ∧
      (Always PaidStays h s ↔ ∀ p ∈ h, Consistent p.1 p.2) := by
  obtain ⟨h, s, hr, hp⟩ := mock.exists_run_of_exec notifiedTwice
    (fun _ s => s.queryPayment (ascii "o1") =
      ⟨ascii "o1", .paid, some (ascii "p1"), some (ascii "100")⟩) (by decide +kernel)
  exact ⟨h, s, hr, of_decide_eq_true hp, paid_stays_iff hr⟩

/-- A second payment, of another amount, is notified for a paid order. -/
def notifiedAgain : List Call :=
  [.verifyNotification (utf8 "mock.o1.p1.100"), .verifyNotification (utf8 "mock.o1.p2.1")]

/-- In some state of the history the order was paid as `p1`; it is paid as `p2` now. -/
def paidOtherwise (h : List (MockPaymentProvider × Call)) (s : MockPaymentProvider) : Bool :=
  h.any (fun p => p.1.queryPayment (ascii "o1") =
    ⟨ascii "o1", .paid, some (ascii "p1"), some (ascii "100")⟩) &&
    s.queryPayment (ascii "o1") = ⟨ascii "o1", .paid, some (ascii "p2"), some (ascii "1")⟩

theorem notifiedAgain_overwrites :
    ∃ h s, mock.Run .new h s ∧ paidOtherwise h s = true ∧ ¬ PaidStays h s := by
  obtain ⟨h, s, hr, hp⟩ :=
    mock.exists_run_of_exec notifiedAgain paidOtherwise (by decide +kernel)
  refine ⟨h, s, hr, hp, fun hs => ?_⟩
  simp only [paidOtherwise, Bool.and_eq_true, List.any_eq_true, decide_eq_true_eq] at hp
  obtain ⟨⟨p, hmem, hthen⟩, hnow⟩ := hp
  have hsame := hs.stable p hmem (ascii "o1") (by rw [hthen])
  rw [hnow, hthen] at hsame
  exact absurd hsame (by decide +kernel)

end LoopzToken.Payment
