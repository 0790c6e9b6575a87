import JobProvenance.Common.QueryRec
import JobProvenance.Common.Schema
import JobProvenance.Primary.Backend

/-!
# Metadata of jobs

What the backend knows of a job by itself: its owner and the time of its
registration. It looks them up for one job, and it looks for the jobs that meet
conditions on them.

* `getJobMetadata`: the values of one job; a time is printed with a fraction;
* `MetaCond`: a condition as the database sees it, on rows, where times are whole
  seconds, and `beQuery`: the jobs that meet some of them.
-/

namespace JobProvenance

/-- Whether the backend knows an attribute. -/
def isMetadata (attr : Bytes) : Bool := attr = GLITE_JP_ATTR_OWNER || attr = GLITE_JP_ATTR_REGTIME

/-- A value the system knows. -/
def systemValue (name value : Bytes) (timestamp : ℤ) : Attrval where
  name := name
  value := value
  binary := false
  size := 0
  origin := .system
  originDetail := none
  timestamp := timestamp

section Lookup

variable (jobs : List JobRow) (users : List UserRow)

/-- The owner of a job and the time of its registration. -/
def getJobInfo (job : Bytes) : Exec (Bytes × ℤ) :=
  match jobs.findSome? fun j => if j.dgJobid = job then
      (users.find? (·.userid = j.owner)).map fun u => (u.certSubj, j.regTime) else none with
  | some info => .ok info
  | none => .error (.errno .ENOENT)

/-- The text of a time: the seconds, and no microseconds. -/
def regtimeText (tvSec : ℤ) : Bytes := printDec tvSec ++ ch '.' :: ascii "000000"

/-- The value of an attribute of a job. -/
def jobMetadata (job name : Bytes) : Exec Attrval := do
  if isMetadata name then
    let (owner, tvSec) ← getJobInfo jobs users job
    return systemValue name (if name = GLITE_JP_ATTR_OWNER then owner else regtimeText tvSec) tvSec
  else throw (.errno .EINVAL)

/-- The values of some attributes of a job. -/
def getJobMetadata (job : Bytes) (names : List Bytes) : Exec (List Attrval) :=
  names.mapM (jobMetadata jobs users job)

end Lookup

/-! ## Queries -/

/-- The time a text starts with; nothing is read where no number stands. -/
def attr2time (value : Bytes) : Exec ℤ :=
  match scanDec value with
  | some (t, _) => .ok t
  | none => .error .fault

/-- A condition on the rows of a job and a user. -/
inductive MetaCond
  | certSubj (subj : Bytes)
  | regTimeEq (t : ℤ)
  | regTimeNe (t : ℤ)
  | regTimeLt (t : ℤ)
  | regTimeGt (t : ℤ)
  | regTimeIn (t₁ t₂ : ℤ)
  deriving DecidableEq

/-- Whether rows meet a condition. -/
def MetaCond.holds (certSubj : Bytes) (regTime : ℤ) : MetaCond → Bool
  | .certSubj subj => certSubj = subj
  | .regTimeEq t => regTime = t
  | .regTimeNe t => regTime ≠ t
  | .regTimeLt t => regTime < t
  | .regTimeGt t => t < regTime
  | .regTimeIn t₁ t₂ => t₁ ≤ regTime && regTime ≤ t₂

/-- Whether a condition is one on users. -/
def MetaCond.onUser : MetaCond → Bool
  | .certSubj _ => true
  | _ => false

/-- The condition of a query record: its origin is not looked at, and the end of a
    range is a second later. -/
def metaCond (qr : QueryRec) : Exec MetaCond :=
  if qr.binary then .error .fault
  else if qr.attr = GLITE_JP_ATTR_OWNER then
    match qr.op with
    | .EQUAL => .ok (.certSubj (qr.value.getD nullText))
    | _ => .error (.errno .EINVAL)
  else if qr.attr = GLITE_JP_ATTR_REGTIME then do
    let value ← Exec.deref qr.value
    let t ← attr2time value
    match qr.op with
    | .EQUAL => return .regTimeEq t
    | .UNEQUAL => return .regTimeNe t
    | .LESS => return .regTimeLt t
    | .GREATER => return .regTimeGt t
    | .WITHIN => do
      let value2 ← Exec.deref qr.value2
      let t₂ ← attr2time value2
      return .regTimeIn t (t₂ + 1)
    | _ => .error (.errno .EINVAL)
  else .error .fault

/-- The rows that meet conditions; the users are looked at when a condition or the result
    needs them. -/
def beRows (jobs : List JobRow) (users : List UserRow) (conds : List MetaCond) (withOwner : Bool) :
    List (JobRow × UserRow) :=
  let users := if withOwner || conds.any (·.onUser) then users else [⟨[], []⟩]
  (jobs.product users).filter fun (j, u) =>
    conds.all (·.holds u.certSubj j.regTime) && (!withOwner || u.userid = j.owner)

/-- The values that are returned of rows. -/
def beValues (attrs : List Bytes) (j : JobRow) (u : UserRow) : List Attrval :=
  attrs.map fun name =>
    systemValue name (if name = GLITE_JP_ATTR_OWNER then u.certSubj else printDec j.regTime) 0

/-- The jobs that meet conditions, each with its values of some attributes, of which
    there is room for two. -/
def beQuery (jobs : List JobRow) (users : List UserRow) (query : List QueryRec)
    (attrs : List Bytes) : Exec (List (Bytes × List Attrval)) := do
  if 2 < attrs.length then .error .fault
  else
    let conds ← query.mapM metaCond
    if ¬attrs.all isMetadata then .error (.errno .EINVAL)
    -- without columns or conditions the statement is none
    else if attrs = [] ∨ conds = [] then .error (.errno Errno.EIO)
    else
      match beRows jobs users conds (GLITE_JP_ATTR_OWNER ∈ attrs) with
      | [] => .error (.errno .ENOENT)
      | rows => return rows.map fun (j, u) => (j.dgJobid, beValues attrs j u)

end JobProvenance
