import Mathlib.Data.List.Basic
import LoopzToken.Lib.Bytes

/-!
# Lib.Response

The status of a response as Go's `net/http` sends it. A handler makes a sequence of
calls on the response writer; the first one that commits decides the final status
(`final_foldl_call`), and nothing that follows changes it.

Only what decides the status is kept: headers and the body are left out.
-/

namespace Lib

/-- The codes that `WriteHeader` takes. -/
abbrev StatusCode := { code : ℕ // 100 ≤ code ∧ code ≤ 999 }

/-- `http.StatusOK`. -/
def StatusCode.ok : StatusCode := ⟨200, by decide⟩

/-- `http.StatusNotImplemented`. -/
def StatusCode.notImplemented : StatusCode := ⟨501, by decide⟩

/-- A code that announces more: 1xx, but not the switch of protocols. -/
def StatusCode.Informational (code : StatusCode) : Prop := code.1 ≤ 199 ∧ code.1 ≠ 101

instance (code : StatusCode) : Decidable code.Informational := inferInstanceAs (Decidable (_ ∧ _))

/-- A call of a handler on its response writer. -/
inductive ResponseCall
  | writeHeader (code : StatusCode)
  | write (data : Bytes)
  | flush
  deriving DecidableEq

/-- What has been sent: the informational codes, and the final status. -/
structure Response where
  informational : List StatusCode
  final : Option StatusCode
  deriving DecidableEq

/-- Nothing has been sent. -/
def Response.new : Response := ⟨[], none⟩

/-- The final status a call commits, if none is committed yet. -/
def ResponseCall.commits : ResponseCall → Option StatusCode
  | .writeHeader code => if code.Informational then none else some code
  | .write _ | .flush => some .ok

/-- One call. Once the final status is committed, calls change no status. -/
def Response.call (r : Response) (c : ResponseCall) : Response :=
  match r.final, c with
  | some _, _ => r
  | none, .writeHeader code =>
      if code.Informational then { r with informational := r.informational ++ [code] }
      else { r with final := some code }
  | none, .write _ | none, .flush => { r with final := some .ok }

/-- The handler returns: the status the client gets. -/
def Response.status (r : Response) : StatusCode := r.final.getD .ok

theorem Response.final_call (r : Response) (c : ResponseCall) :
    (r.call c).final = r.final.or c.commits := by
  unfold call
  cases hf : r.final with
  | some code => simp [hf]
  | none =>
      cases c with
      | write data | flush => rfl
      | writeHeader code =>
          unfold ResponseCall.commits
          dsimp only
          split <;> simp

/-- **The first call that commits decides.** -/
theorem Response.final_foldl_call (r : Response) (calls : List ResponseCall) :
    (calls.foldl call r).final = r.final.or (calls.findSome? ResponseCall.commits) := by
  induction calls generalizing r with
  | nil => simp
  | cons c calls ih =>
      rw [List.foldl_cons, ih, final_call, List.findSome?_cons, Option.or_assoc]
      cases c.commits <;> simp

/-- A final status is never informational. -/
theorem ResponseCall.commits_not_informational {c : ResponseCall} {code : StatusCode}
    (h : c.commits = some code) : ¬ code.Informational := by
  cases c with
  | write data | flush =>
      obtain rfl := Option.some.inj h
      decide
  | writeHeader code' =>
      by_cases hinf : code'.Informational
      · simp [commits, hinf] at h
      · obtain rfl : code' = code := by simpa [commits, hinf] using h
        exact hinf

end Lib
