import LoopzToken.Lib.JsonSuffix
import LoopzToken.Lib.Reader

/-!
# LoopzToken.Billing.Answer

What the gateway's billing client makes of an answer: `Client.do`, from the response on.

At most 1 MiB of the body is read, and a body that goes on behind is not told from one
that ends there; an empty body is not decoded at all. Where these two rules do harm is
said exactly by `answerRead_iff`, and what it asks of the bytes behind the first 1 MiB by
`startTells_iff_spaces`.
-/

namespace LoopzToken.Billing

open Lib GoJson

/-! ### The client -/

structure HttpResponse where
  statusCode : ℕ
  body : Reader

/-- The errors of `do`. -/
inductive ClientError
  | read (message : String)
  | status (message : Bytes)
  | unmarshal (err : UnmarshalError)
  deriving DecidableEq, Repr

/-- The limit of the response body, 1 MiB. -/
def maxResponseBody : ℕ := 1 <<< 20

/-- The message for a status that is no success. -/
def statusMessage (method path : Bytes) (statusCode : ℕ) (respBody : Bytes) : Bytes :=
  utf8 "billing " ++ method ++ utf8 " " ++ path ++ utf8 ": status=" ++ utf8 (toString statusCode) ++
    utf8 " body=" ++ respBody

section

variable {β : Type*} (T : Target β)

/-- `do`, once the response is there: the error, and what is left in `out`, which is
`none` for a nil one. -/
def doResponse (method path : Bytes) (resp : HttpResponse) (out : Option β) :
    Option ClientError × Option β :=
  match resp.body.readAll maxResponseBody with
  | (_, some err) => (some (.read err), out)
  | (respBody, none) =>
      if resp.statusCode < 200 ∨ resp.statusCode ≥ 300 then
        (some (.status (statusMessage method path resp.statusCode respBody)), out)
      else
        match out with
        | none => (none, none)
        | some v =>
            if respBody.length > 0 then
              ((unmarshalInto T respBody v).2.map .unmarshal, some (unmarshalInto T respBody v).1)
            else (none, some v)

/-- `GetWallet`, once the response is there. -/
def getWalletResponse (userID : Bytes) (resp : HttpResponse) (out : β) :
    Option ClientError × Option β :=
  doResponse T (utf8 "GET") (utf8 "/internal/v1/wallets/" ++ userID) resp (some out)

/-! ### What success promises -/

def HttpResponse.Success (resp : HttpResponse) : Prop :=
  200 ≤ resp.statusCode ∧ resp.statusCode < 300

/-- The complete body was received, is one document, and decodes into `out`. -/
def HttpResponse.Decodes (resp : HttpResponse) (out : β) : Prop :=
  resp.body.failure = none ∧ (unmarshalInto T resp.body.data out).2 = none

/-- The call returns nil exactly if the answer is a success whose complete body decodes
into `out`, and then `out` is what the complete body makes of it. -/
structure AnswerRead (method path : Bytes) (resp : HttpResponse) (out : β) : Prop where
  nil_iff : (doResponse T method path resp (some out)).1 = none ↔
    resp.Success ∧ resp.Decodes T out
  filled : (doResponse T method path resp (some out)).1 = none →
    (doResponse T method path resp (some out)).2 = some (unmarshalInto T resp.body.data out).1

/-! ### When it is kept -/

/-- The body goes on, or fails, behind the limit. -/
def HttpResponse.CutOff (resp : HttpResponse) : Prop :=
  maxResponseBody < resp.body.data.length ∨ maxResponseBody = resp.body.data.length ∧
    resp.body.failure ≠ none ∧ resp.body.endsAbruptly = false

/-- The first 1 MiB decodes as the complete body does: both do with the same result, or
neither does. -/
def HttpResponse.StartTells (resp : HttpResponse) (out : β) : Prop :=
  ((unmarshalInto T (resp.body.data.take maxResponseBody) out).2 = none ↔ resp.Decodes T out) ∧
    (resp.Decodes T out → (unmarshalInto T (resp.body.data.take maxResponseBody) out).1 =
      (unmarshalInto T resp.body.data out).1)

/-! ### What is read -/

/-- Of a body that is cut off, the first 1 MiB is read, and no error is seen. -/
theorem readAll_of_cutOff {resp : HttpResponse} (h : resp.CutOff) :
    resp.body.readAll maxResponseBody = (resp.body.data.take maxResponseBody, none) := by
  refine Prod.ext (Reader.readAll_fst ..) ?_
  rcases h with hlt | ⟨heq, -, hends⟩
  · exact Reader.readAll_snd_of_gt hlt
  · rw [Reader.readAll_snd_of_eq heq.symm, hends]
    rfl

/-- Any other body is read as it is. -/
theorem readAll_of_not_cutOff {resp : HttpResponse} (h : ¬ resp.CutOff) :
    resp.body.readAll maxResponseBody = (resp.body.data, resp.body.failure) := by
  obtain ⟨hle, hends⟩ := not_or.mp h
  have hle' := Nat.not_lt.mp hle
  refine Prod.ext ?_ ?_
  · rw [Reader.readAll_fst, List.take_of_length_le hle']
  · rcases Nat.lt_or_eq_of_le hle' with hlt | heq
    · exact Reader.readAll_snd_of_lt hlt
    · rw [Reader.readAll_snd_of_eq heq]
      cases hfailure : resp.body.failure with
      | none => simp
      | some err =>
          have hends' : resp.body.endsAbruptly = true := by
            by_contra hno
            exact hends ⟨heq.symm, by simp [hfailure], by simpa using hno⟩
          rw [hends']
          rfl

/-! ### One case at a time -/

/-- An empty text is no document. -/
theorem unmarshalInto_nil (out : β) : unmarshalInto T [] out = (out, some .syntaxError) := rfl

theorem HttpResponse.Success.status {resp : HttpResponse} (hs : resp.Success) :
    ¬ (resp.statusCode < 200 ∨ resp.statusCode ≥ 300) := by
  obtain ⟨hlo, hhi⟩ := hs
  omega

/-- Another status is never reported as a success, and `out` is left as it was. -/
theorem doResponse_of_not_success (method path : Bytes) {resp : HttpResponse} (out : Option β)
    (hs : ¬ resp.Success) : ∃ err, doResponse T method path resp out = (some err, out) := by
  have hstatus : resp.statusCode < 200 ∨ resp.statusCode ≥ 300 := by
    unfold HttpResponse.Success at hs
    omega
  unfold doResponse
  split
  · exact ⟨_, rfl⟩
  · rw [if_pos hstatus]
    exact ⟨_, rfl⟩

/-- The bytes of a success that were read decide, if there are any. -/
theorem doResponse_of_read (method path : Bytes) {resp : HttpResponse} (out : β)
    {respBody : Bytes} (hs : resp.Success)
    (hread : resp.body.readAll maxResponseBody = (respBody, none)) (hne : respBody ≠ []) :
    doResponse T method path resp (some out) =
      ((unmarshalInto T respBody out).2.map .unmarshal,
        some (unmarshalInto T respBody out).1) := by
  rw [doResponse, hread]
  dsimp only
  rw [if_neg hs.status, if_pos (List.length_pos_of_ne_nil hne)]

/-- A body that is cut off is told by its start, or not at all. -/
theorem answerRead_of_cutOff (method path : Bytes) {resp : HttpResponse} (out : β)
    (hs : resp.Success) (hcut : resp.CutOff) :
    AnswerRead T method path resp out ↔ resp.StartTells T out := by
  have hne : resp.body.data.take maxResponseBody ≠ [] := by
    have hpos : 0 < maxResponseBody := by decide
    have hle : maxResponseBody ≤ resp.body.data.length := by
      rcases hcut with hlt | ⟨heq, -⟩
      · exact Nat.le_of_lt hlt
      · exact Nat.le_of_eq heq
    rw [← List.length_pos_iff_ne_nil, List.length_take]
    omega
  have hdo := doResponse_of_read T method path out hs (readAll_of_cutOff hcut) hne
  constructor
  · intro h
    obtain ⟨hnil, hfilled⟩ := h
    rw [hdo] at hnil hfilled
    simp only [Option.map_eq_none_iff, Option.some.injEq, hs, true_and] at hnil hfilled
    exact ⟨hnil, fun hdec => hfilled (hnil.mpr hdec)⟩
  · intro h
    obtain ⟨hiff, hsame⟩ := h
    constructor <;> rw [hdo] <;>
      simp only [Option.map_eq_none_iff, Option.some.injEq, hs, true_and]
    · exact hiff
    · exact fun hnone => hsame (hiff.mp hnone)

/-- A body that is read as it is must not be empty. -/
theorem answerRead_of_not_cutOff (method path : Bytes) {resp : HttpResponse} (out : β)
    (hs : resp.Success) (hcut : ¬ resp.CutOff) :
    AnswerRead T method path resp out ↔ (resp.body.data = [] → resp.body.failure ≠ none) := by
  have hread := readAll_of_not_cutOff hcut
  cases hfailure : resp.body.failure with
  | some err =>
      rw [hfailure] at hread
      have hdo : doResponse T method path resp (some out) = (some (.read err), some out) := by
        rw [doResponse, hread]
      refine ⟨fun _ _ => by simp, fun _ => ⟨?_, ?_⟩⟩ <;> rw [hdo]
      · simp [HttpResponse.Decodes, hfailure]
      · simp
  | none =>
      rw [hfailure] at hread
      by_cases hne : resp.body.data = []
      · -- nothing is decoded, and nil is returned
        rw [hne] at hread
        have hdo : doResponse T method path resp (some out) = (none, some out) := by
          rw [doResponse, hread]
          dsimp only
          rw [if_neg hs.status]
          rfl
        refine ⟨fun h => ?_, fun h => absurd rfl (h hne)⟩
        have hdec := (h.nil_iff.mp (by rw [hdo])).2.2
        rw [hne, unmarshalInto_nil] at hdec
        cases hdec
      · have hdo := doResponse_of_read T method path out hs hread hne
        refine ⟨fun _ h => absurd h hne, fun _ => ⟨?_, fun _ => ?_⟩⟩ <;> rw [hdo]
        simp [HttpResponse.Decodes, hfailure, hs]

/-! ### What stands behind the first 1 MiB -/

/-- What is not read of a body that is cut off. -/
def HttpResponse.behind (resp : HttpResponse) : Bytes := resp.body.data.drop maxResponseBody

theorem HttpResponse.data_eq (resp : HttpResponse) :
    resp.body.data.take maxResponseBody ++ resp.behind = resp.body.data :=
  List.take_append_drop ..

/-- A start that does not decode tells of a body that does not. -/
theorem startTells_of_not_decodes {resp : HttpResponse} {out : β}
    (hstart : (unmarshalInto T (resp.body.data.take maxResponseBody) out).2 ≠ none) :
    resp.StartTells T out ↔ ¬ resp.Decodes T out := by
  constructor
  · intro h hdec
    exact hstart (h.1.mpr hdec)
  · intro hdec
    exact ⟨⟨fun h => absurd h hstart, fun h => absurd h hdec⟩, fun h => absurd h hdec⟩

/-- If white space follows, the start tells, unless the reading fails behind a start that
decodes. -/
theorem startTells_of_spaces {resp : HttpResponse} (out : β)
    (hspaces : resp.behind.all JsonParse.isSpaceByte = true) :
    resp.StartTells T out ↔ (resp.body.failure = none ∨
      (unmarshalInto T (resp.body.data.take maxResponseBody) out).2 ≠ none) := by
  have hsame : unmarshalInto T resp.body.data out =
      unmarshalInto T (resp.body.data.take maxResponseBody) out := by
    conv_lhs => rw [← resp.data_eq]
    rw [unmarshalInto, JsonParse.parse_runes_spaces _ hspaces]
    rfl
  unfold HttpResponse.StartTells HttpResponse.Decodes
  rw [hsame]
  by_cases hstart : (unmarshalInto T (resp.body.data.take maxResponseBody) out).2 = none <;>
    simp [hstart]

/-- **What the condition asks of the bytes.** Behind a start that decodes, and is no number,
only white space may follow, and the reading must not fail. -/
theorem startTells_iff_spaces {resp : HttpResponse} {out : β} {doc : Json}
    (hdoc : JsonParse.parse (runes 0 (resp.body.data.take maxResponseBody)) = some doc)
    (hnumber : ∀ lexeme, doc ≠ .number lexeme)
    (hstart : (unmarshalInto T (resp.body.data.take maxResponseBody) out).2 = none) :
    resp.StartTells T out ↔
      resp.body.failure = none ∧ resp.behind.all JsonParse.isSpaceByte = true := by
  by_cases hspaces : resp.behind.all JsonParse.isSpaceByte = true
  · rw [startTells_of_spaces T out hspaces]
    simp [hstart, hspaces]
  · have hparse : JsonParse.parse (runes 0 resp.body.data) = none := by
      rw [← resp.data_eq, JsonParse.parse_runes_append hdoc hnumber, if_neg hspaces]
    have hno : ¬ resp.Decodes T out := by
      intro h
      have herr := h.2
      rw [unmarshalInto, hparse] at herr
      cases herr
    exact ⟨fun h => absurd (h.1.mp hstart) hno, fun h => absurd h.2 hspaces⟩

/-! ### When success means that the answer was read -/

/-- **When a nil result can be trusted.** For every response and every type of `out`:
exactly if, whenever the status is a success, the body is not empty (or its reading
fails), and a body that is cut off is told by its first 1 MiB. -/
theorem answerRead_iff (method path : Bytes) (resp : HttpResponse) (out : β) :
    AnswerRead T method path resp out ↔
      (resp.Success → (resp.body.data = [] → resp.body.failure ≠ none) ∧
        (resp.CutOff → resp.StartTells T out)) := by
  by_cases hs : resp.Success
  · by_cases hcut : resp.CutOff
    · have hdata : resp.body.data ≠ [] := by
        intro hnil
        rcases hcut with hlt | ⟨heq, -⟩
        · simp [hnil] at hlt
        · exact absurd (hnil ▸ heq) (by decide)
      simp [answerRead_of_cutOff T method path out hs hcut, hs, hcut, hdata]
    · simp [answerRead_of_not_cutOff T method path out hs hcut, hs, hcut]
  · obtain ⟨err, herr⟩ := doResponse_of_not_success T method path (some out) hs
    exact ⟨fun _ h => absurd h hs, fun _ => ⟨by simp [herr, hs], by simp [herr]⟩⟩

end

/-- The target `out *any`: every document is stored as it is. -/
def anyTarget : Target (Option Json) := fun doc _ => (some doc, none)

/-- A success without a body. -/
def emptyAnswer : HttpResponse := ⟨200, .eof⟩

theorem emptyAnswer_reports_success :
    getWalletResponse anyTarget (utf8 "u1") emptyAnswer none = (none, some none) ∧
      (unmarshalInto anyTarget emptyAnswer.body.data none).2 = some .syntaxError ∧
      ¬ AnswerRead anyTarget (utf8 "GET") (utf8 "/internal/v1/wallets/u1") emptyAnswer none := by
  refine ⟨rfl, rfl, fun h => ?_⟩
  exact absurd (h.nil_iff.mp rfl).2.2 (by decide)

end LoopzToken.Billing
