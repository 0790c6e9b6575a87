import JobProvenance.Lib.Exec

/-!
# Faults a client receives

What a client makes of the result of a call: `clientGetFault` looks for the errors of
the server in the details of a fault, `clientGetErrno` for the code of the outermost of
them, and `clientCheckFault` prints them and tells success from failure.
-/

namespace JobProvenance

/-- What a call returns: success, a fault of the server, or an error of the client's own
    library. -/
inductive SoapErr
  | SOAP_OK
  | SOAP_FAULT
  | SOAP_SVR_FAULT
  | other
  deriving DecidableEq

/-- The errors of a server: the code of the outermost, and how many reasons it has, one
    below the other. -/
structure GenericFault where
  code : ℤ
  reasons : ℕ

/-- The details of a fault: whether they are errors of the server, whether they are text,
    and the errors. -/
structure SoapDetail where
  generic : Bool
  any : Bool
  fault : Option GenericFault

/-- The result of a call, with the details of the fault and the response. -/
structure SoapReply (α : Type) where
  err : SoapErr
  detail : Option SoapDetail
  response : α

/-- Where a result is described: in no fault, a fault of the server, or the library. Details
    that are neither text nor errors end the client. -/
def clientGetFault (err : SoapErr) (detail : Option SoapDetail) : Exec (ℕ × Option GenericFault) :=
  match err with
  | .SOAP_OK => .ok (0, none)
  | .SOAP_FAULT | .SOAP_SVR_FAULT =>
    match detail with
    | none => .ok (1, none)
    | some d =>
      if d.generic = false ∧ d.any = true then .ok (1, none)
      else if d.generic then .ok (1, d.fault) else .error .fault
  | .other => .ok (2, none)

/-- The code of an error: of the server, or -2 and -1 when there is none. -/
def clientGetErrno (err : SoapErr) (detail : Option SoapDetail) : Exec ℤ := do
  match ← clientGetFault err detail with
  | (0, _) => return 0
  | (1, f) => return f.elim (-2) (·.code)
  | _ => return -1

/-- The size of the text that is printed in front of an error, by its depth. -/
def INDENT : ℕ := 200

/-- Prints a result: zero for a success, or -1. The text in front of an error grows with
    its depth. -/
def clientCheckFault (err : SoapErr) (detail : Option SoapDetail) : Exec ℤ := do
  match ← clientGetFault err detail with
  | (0, _) => return 0
  | (1, some f) => if 2 + 2 * (f.reasons + 1) < INDENT then return -1 else throw .fault
  | _ => return -1

variable {err : SoapErr} {detail : Option SoapDetail} {ret : ℤ}

/-- The result is described in no fault exactly when it is a success. -/
theorem clientGetFault_eq_ok {n : ℕ} {f : Option GenericFault}
    (h : clientGetFault err detail = .ok (n, f)) : n = 0 ↔ err = .SOAP_OK := by
  have hfault : ∀ d : Option SoapDetail, clientGetFault .SOAP_FAULT d = .ok (n, f) → n = 1 := by
    intro d hd
    cases d with
    | none => cases hd; rfl
    | some d =>
      simp only [clientGetFault] at hd
      split_ifs at hd <;> cases hd <;> rfl
  cases err with
  | SOAP_OK => cases h; exact iff_of_true rfl rfl
  | SOAP_FAULT => exact iff_of_false (by rw [hfault detail h]; decide) (by decide)
  | SOAP_SVR_FAULT => exact iff_of_false (by rw [hfault detail h]; decide) (by decide)
  | other => cases h; exact iff_of_false (by decide) (by decide)

/-- A call is found to have succeeded exactly when it has. -/
theorem clientCheckFault_eq_ok (h : clientCheckFault err detail = .ok ret) :
    ret = 0 ↔ err = .SOAP_OK := by
  obtain ⟨⟨n, f⟩, hf, h⟩ := Exec.bind_eq_ok.1 h
  rw [← clientGetFault_eq_ok hf]
  rcases n with _ | _ | n
  · cases h
    exact iff_of_true rfl rfl
  · cases f with
    | none => cases h; exact iff_of_false (by decide) (by decide)
    | some f =>
      obtain ⟨-, h⟩ | ⟨-, h⟩ := ite_eq_iff.1 h
      · cases h
        exact iff_of_false (by decide) (by decide)
      · cases h
  · cases h
    exact iff_of_false (by decide) (by omega)

/-- Only a fault has a code that is not zero. -/
theorem clientGetErrno_eq_ok (h : clientGetErrno err detail = .ok ret) (hret : ret ≠ 0) :
    err ≠ .SOAP_OK := by
  rintro rfl
  cases h
  exact hret rfl

end JobProvenance
