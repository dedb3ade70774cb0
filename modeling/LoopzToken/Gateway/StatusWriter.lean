import Mathlib.Data.List.Induction
import LoopzToken.Lib.Response

/-!
# LoopzToken.Gateway.StatusWriter

The response writer that the gateway's middleware gives to its handlers, and the status
it logs when a handler returns.

`statusWriter` notes the code of every `WriteHeader` and passes all calls on. Whether
the note is the status that is sent depends on the last `WriteHeader` only: the log is
right if and only if that call is not informational and nothing else was committed
before it (`logged_eq_sent_iff`).
-/

namespace LoopzToken.Gateway

open Lib

/-! ### The writer -/

/-- `statusWriter`: the writer it wraps, and the status it noted. -/
structure StatusWriter (ω : Type*) where
  responseWriter : ω
  status : StatusCode

section

variable {ω : Type*} (inner : ω → ResponseCall → ω)

/-- `WriteHeader`. -/
def StatusWriter.writeHeader (w : StatusWriter ω) (status : StatusCode) : StatusWriter ω :=
  { responseWriter := inner w.responseWriter (.writeHeader status), status := status }

/-- `Flush`, of a writer that supports it. -/
def StatusWriter.flush (w : StatusWriter ω) : StatusWriter ω :=
  { w with responseWriter := inner w.responseWriter .flush }

/-- The calls of a handler: `Write` is the one of the wrapped writer. -/
def StatusWriter.call (w : StatusWriter ω) : ResponseCall → StatusWriter ω
  | .writeHeader status => w.writeHeader inner status
  | .write data => { w with responseWriter := inner w.responseWriter (.write data) }
  | .flush => w.flush inner

end

/-- `middleware`: the writer a handler leaves behind that makes the given calls. -/
def middleware (calls : List ResponseCall) : StatusWriter Response :=
  calls.foldl (StatusWriter.call Response.call) { responseWriter := .new, status := .ok }

/-- The `status` of the log entry. -/
def loggedStatus (calls : List ResponseCall) : StatusCode := (middleware calls).status

/-- The status that the client gets. -/
def sentStatus (calls : List ResponseCall) : StatusCode := (middleware calls).responseWriter.status

/-- `writeJSON`, with the encoded value. -/
def writeJSON (status : StatusCode) (v : Bytes) : List ResponseCall :=
  [.writeHeader status, .write v]

/-! ### Two machines -/

/-- The wrapper passes every call on to the writer it wraps. -/
theorem responseWriter_foldl_call {ω : Type*} (inner : ω → ResponseCall → ω)
    (w : StatusWriter ω) (calls : List ResponseCall) :
    (calls.foldl (StatusWriter.call inner) w).responseWriter =
      calls.foldl inner w.responseWriter := by
  induction calls generalizing w with
  | nil => rfl
  | cons c calls ih =>
      rw [List.foldl_cons, List.foldl_cons, ih]
      cases c <;> rfl

/-- The code of a `WriteHeader`. -/
def header : ResponseCall → Option StatusCode
  | .writeHeader code => some code
  | _ => none

/-- The wrapper notes the last `WriteHeader`. -/
theorem status_foldl_call {ω : Type*} (inner : ω → ResponseCall → ω) (w : StatusWriter ω)
    (calls : List ResponseCall) :
    (calls.foldl (StatusWriter.call inner) w).status =
      (calls.reverse.findSome? header).getD w.status := by
  induction calls using List.reverseRecOn with
  | nil => rfl
  | append_singleton calls c ih =>
      rw [List.foldl_append, List.foldl_cons, List.foldl_nil, List.reverse_append,
        List.reverse_singleton, List.singleton_append, List.findSome?_cons]
      cases c with
      | writeHeader code => rfl
      | write data | flush => exact ih

theorem sentStatus_eq (calls : List ResponseCall) :
    sentStatus calls = (calls.findSome? ResponseCall.commits).getD .ok := by
  rw [sentStatus, middleware, responseWriter_foldl_call, Response.status,
    Response.final_foldl_call]
  rfl

theorem loggedStatus_eq (calls : List ResponseCall) :
    loggedStatus calls = (calls.reverse.findSome? header).getD .ok :=
  status_foldl_call ..

/-! ### When the log is right -/

/-- The last `WriteHeader`, if there is one, is not informational, and the first call before
it that commits a status, if there is one, commits the same code. -/
def LastHeaderCounts (calls : List ResponseCall) : Prop :=
  ∀ before code after, calls = before ++ .writeHeader code :: after →
    (∀ c ∈ after, header c = none) → ¬ code.Informational ∧
      ∀ earlier c later committed, before = earlier ++ c :: later →
        (∀ d ∈ earlier, d.commits = none) → c.commits = some committed → committed = code

theorem sentStatus_not_informational (calls : List ResponseCall) :
    ¬ (sentStatus calls).Informational := by
  rw [sentStatus_eq]
  cases hcommits : calls.findSome? ResponseCall.commits with
  | none => decide
  | some code =>
      obtain ⟨c, -, hc⟩ := List.exists_of_findSome?_eq_some hcommits
      exact ResponseCall.commits_not_informational hc

/-- Both statuses, by the last `WriteHeader`. -/
theorem logged_eq_sent_of_last {before after : List ResponseCall} {code : StatusCode}
    (hafter : ∀ c ∈ after, header c = none) :
    loggedStatus (before ++ .writeHeader code :: after) =
        sentStatus (before ++ .writeHeader code :: after) ↔
      ¬ code.Informational ∧
        ∀ committed, before.findSome? ResponseCall.commits = some committed → committed = code := by
  have hlogged : loggedStatus (before ++ .writeHeader code :: after) = code := by
    have hnone : after.reverse.findSome? header = none := by simpa using hafter
    rw [loggedStatus_eq, List.reverse_append, List.reverse_cons, List.append_assoc,
      List.findSome?_append, hnone]
    rfl
  rw [hlogged]
  constructor
  · intro h
    have hinf : ¬ code.Informational := h ▸ sentStatus_not_informational _
    refine ⟨hinf, fun committed hcommitted => ?_⟩
    rw [h, sentStatus_eq, List.findSome?_append, hcommitted]
    rfl
  · intro h
    obtain ⟨hinf, hbefore⟩ := h
    rw [sentStatus_eq, List.findSome?_append]
    cases hcommits : before.findSome? ResponseCall.commits with
    | some committed => exact (hbefore committed hcommits).symm
    | none => simp [ResponseCall.commits, hinf]

/-- **When the logged status is the sent one.** For every sequence of calls. -/
theorem logged_eq_sent_iff (calls : List ResponseCall) :
    loggedStatus calls = sentStatus calls ↔ LastHeaderCounts calls := by
  constructor
  · intro h before code after heq hafter
    subst heq
    obtain ⟨hinf, hbefore⟩ := (logged_eq_sent_of_last hafter).mp h
    exact ⟨hinf, fun earlier c later committed heq hearlier hc =>
      hbefore committed (List.findSome?_eq_some_iff.mpr ⟨earlier, c, later, heq, hc, hearlier⟩)⟩
  · intro h
    cases hlast : calls.reverse.findSome? header with
    | some code =>
        obtain ⟨after, c, before, heq, hc, hafter⟩ := List.findSome?_eq_some_iff.mp hlast
        obtain rfl : c = .writeHeader code := by
          cases c <;> simp_all [header]
        have hcalls : calls = before.reverse ++ .writeHeader code :: after.reverse := by
          simpa using congrArg List.reverse heq
        have hafter' : ∀ c ∈ after.reverse, header c = none := by simpa using hafter
        obtain ⟨hinf, hbefore⟩ := h _ _ _ hcalls hafter'
        rw [hcalls, logged_eq_sent_of_last hafter']
        refine ⟨hinf, fun committed hcommitted => ?_⟩
        obtain ⟨earlier, c, later, heq, hc, hearlier⟩ := List.findSome?_eq_some_iff.mp hcommitted
        exact hbefore earlier c later committed heq hearlier hc
    | none =>
        -- without a `WriteHeader`, whatever commits commits 200
        rw [loggedStatus_eq, sentStatus_eq, hlast]
        cases hcommits : calls.findSome? ResponseCall.commits with
        | none => rfl
        | some committed =>
            obtain ⟨c, hmem, hc⟩ := List.exists_of_findSome?_eq_some hcommits
            have hheader : header c = none := by
              simpa using List.findSome?_eq_none_iff.mp hlast c (by simpa using hmem)
            cases c with
            | writeHeader code => cases hheader
            | write data | flush => exact Option.some.inj hc

/-- The handlers that answer with `writeJSON` are logged as they are sent. -/
theorem writeJSON_logged {status : StatusCode} (h : ¬ status.Informational) (v : Bytes) :
    loggedStatus (writeJSON status v) = status ∧ sentStatus (writeJSON status v) = status := by
  rw [loggedStatus_eq, sentStatus_eq]
  exact ⟨rfl, by simp [writeJSON, ResponseCall.commits, h]⟩

/-- An error status after streaming began. -/
def lateError : List ResponseCall :=
  [.write (utf8 "data: 1"), .flush, .writeHeader ⟨500, by decide⟩]

theorem lateError_logged_wrong :
    (loggedStatus lateError).1 = 500 ∧ (sentStatus lateError).1 = 200 ∧
      ¬ ∀ calls, loggedStatus calls = sentStatus calls := by
  refine ⟨by decide +kernel, by decide +kernel, fun h => ?_⟩
  exact absurd (congrArg Subtype.val (h lateError)) (by decide +kernel)

end LoopzToken.Gateway
