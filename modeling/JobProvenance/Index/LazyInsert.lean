import JobProvenance.Index.Update

/-!
# Inserting a job and its owner

`lazyInsertJob` again, with the number the function returns. It makes two queries, for the
job and for its owner, and inserts what is not there; when an insertion fails, it returns
the code of the error record of the context. A query that fails is taken for one that has
found something: the operation goes on, and may return zero.

The state has, beside the database and the error record, the statements that have failed.

* `lazyInsertJobRet_eq`: what this has to do with the operation `lazyInsertJob`;
* `selectOrInsert_cases`: what one query and its insertion do;
* `insertsReliably_iff`: when the number that is returned can be relied on.
-/

namespace JobProvenance

/-- What an insertion works on: the database, the codes of the error record, the last one
    first, and the statements that have failed. -/
structure InsertState where
  db : IndexDb
  errors : List ℤ
  failed : List Statement

/-- A computation on the database and the error record. -/
abbrev Inserting := EStateM Stop InsertState

variable (ctx : IndexContext) (fails : Statement → Bool) (dbError : Statement → ℤ)

/-- Records an error. -/
def Inserting.stackError (code : ℤ) : Inserting Unit :=
  modify fun s => { s with errors := code :: s.errors }

/-- Records the error of the database, if it has one. -/
def dbSetError (p : Statement) : Inserting Unit :=
  if dbError p ≠ 0 then Inserting.stackError (dbError p) else pure ()

/-- Executes a prepared statement: the number of rows it finds or changes, or -1. -/
def execPreparedStmt (p : Statement) (stmt : IndexDb → Option (ℕ × IndexDb)) : Inserting ℤ := do
  let s ← get
  match if fails p then none else stmt s.db with
  | some (n, db) =>
    set { s with db }
    return n
  | none =>
    set { s with failed := p :: s.failed }
    dbSetError dbError p
    return -1

/-- Queries for a row, and inserts it when there is none: whether the operation goes on. -/
def selectOrInsert (select insert : Statement) (count : IndexDb → ℕ)
    (stmt : IndexDb → Option IndexDb) : Inserting Bool := do
  let ret ← execPreparedStmt fails dbError select fun db => some (count db, db)
  if ret = 0 then
    let ret ← execPreparedStmt fails dbError insert fun db => (stmt db).map fun db => (1, db)
    return ret = 1
  else return true

/-- The code of the last error; there has to be one. -/
def lastError : Inserting ℤ := do
  match (← get).errors with
  | [] => throw .fault
  | code :: _ => return code

/-- Inserts a job and its owner, unless they are there, and returns zero or the code of an
    error. -/
def lazyInsertJobRet (ijobs : ℕ) (ps : Bytes) : Option Bytes → Option Bytes → Inserting ℤ
  | some jobid, some owner => do
    if ← selectOrInsert fails dbError (.selectJobid ijobs) (.insertJob ijobs)
        (·.countJobs (ctx.md5 jobid)) (insertJobRow ctx ps jobid owner) then
      if ← selectOrInsert fails dbError (.selectUser ijobs) (.insertUser ijobs)
          (·.countUsers (ctx.md5 owner)) (insertUserRow ctx owner) then
        return 0
      else lastError
    else lastError
  | _, _ => do
    Inserting.stackError Errno.EINVAL.code
    lastError

/-! ## A query and its insertion -/

section Steps

open Stateful

variable {fails dbError} {s : InsertState} {p select insert : Statement} {count : IndexDb → ℕ}
  {stmt : IndexDb → Option IndexDb}

/-- The state after a statement has failed. -/
def InsertState.fail (dbError : Statement → ℤ) (p : Statement) (s : InsertState) : InsertState :=
  { s with errors := dbError p :: s.errors, failed := p :: s.failed }

/-- Whether an insertion fails. -/
def InsertionFails (fails : Statement → Bool) (insert : Statement)
    (stmt : IndexDb → Option IndexDb) (db : IndexDb) : Prop :=
  fails insert = true ∨ stmt db = none

theorem execPreparedStmt_eq (hcode : ∀ p, dbError p ≠ 0) (stmt : IndexDb → Option (ℕ × IndexDb)) :
    execPreparedStmt fails dbError p stmt s = match if fails p then none else stmt s.db with
      | some (n, db) => .ok (n : ℤ) { s with db }
      | none => .ok (-1) (s.fail dbError p) := by
  rw [execPreparedStmt, get_bind]
  rcases (if fails p then none else stmt s.db) with _ | ⟨n, db⟩
  · rw [dbSetError, if_pos (hcode p)]
    rfl
  · rfl

/-- How a query and its insertion may go. -/
inductive InsertsRow (fails : Statement → Bool) (dbError : Statement → ℤ) (select insert : Statement)
    (count : IndexDb → ℕ) (stmt : IndexDb → Option IndexDb) (s : InsertState) :
    Bool → InsertState → Prop
  | noAnswer : fails select = true → InsertsRow fails dbError select insert count stmt s true
      (s.fail dbError select)
  | found : fails select = false → count s.db ≠ 0 →
      InsertsRow fails dbError select insert count stmt s true s
  | notInserted : fails select = false → count s.db = 0 → InsertionFails fails insert stmt s.db →
      InsertsRow fails dbError select insert count stmt s false (s.fail dbError insert)
  | inserted {db : IndexDb} : fails select = false → count s.db = 0 → fails insert = false →
      stmt s.db = some db → InsertsRow fails dbError select insert count stmt s true { s with db }

theorem selectOrInsert_cases (hcode : ∀ p, dbError p ≠ 0) :
    ∃ go s', selectOrInsert fails dbError select insert count stmt s = .ok go s' ∧
      InsertsRow fails dbError select insert count stmt s go s' := by
  rw [selectOrInsert, bind_eq, execPreparedStmt_eq hcode]
  cases hs : fails select with
  | true => exact ⟨true, _, rfl, .noAnswer hs⟩
  | false =>
    by_cases hc : count s.db = 0
    · have hzero : ((count s.db : ℕ) : ℤ) = 0 := by rw [hc, Nat.cast_zero]
      simp only [Bool.false_eq_true, if_false, hzero, if_true]
      rw [bind_eq, execPreparedStmt_eq hcode]
      cases hi : fails insert with
      | true => exact ⟨false, _, rfl, .notInserted hs hc (.inl hi)⟩
      | false =>
        cases hstmt : stmt s.db with
        | none => exact ⟨false, _, by simp, .notInserted hs hc (.inr hstmt)⟩
        | some db => exact ⟨true, _, by simp, .inserted hs hc hi hstmt⟩
    · have hzero : ((count s.db : ℕ) : ℤ) ≠ 0 := fun h => hc (Int.ofNat_eq_zero.1 h)
      simp only [Bool.false_eq_true, if_false, if_neg hzero]
      exact ⟨true, s, rfl, .found hs hc⟩

@[simp]
theorem lastError_fail : lastError (s.fail dbError p) = .ok (dbError p) (s.fail dbError p) := rfl

namespace InsertsRow

variable {go : Bool} {s' : InsertState}

/-- A query that fails is recorded, -/
theorem failed_ne_nil (h : InsertsRow fails dbError select insert count stmt s go s')
    (hs : fails select = true ∨ s.failed ≠ []) : s'.failed ≠ [] := by
  rcases h with _ | ⟨hs', -⟩ | _ | ⟨hs', -⟩
  · exact List.cons_ne_nil _ _
  · exact hs.resolve_left (by simp [hs'])
  · exact List.cons_ne_nil _ _
  · exact hs.resolve_left (by simp [hs'])

/-- and when none fails, and no insertion, nothing is. -/
theorem failed_eq (h : InsertsRow fails dbError select insert count stmt s true s')
    (hs : fails select = false) : s'.failed = s.failed := by
  rcases h with hs' | _ | _ | _
  · exact absurd (hs.symm.trans hs') Bool.false_ne_true
  · rfl
  · rfl

/-- An insertion that fails ends the operation. -/
theorem not_insertionFails (h : InsertsRow fails dbError select insert count stmt s true s')
    (hs : fails select = false) : ¬(count s.db = 0 ∧ InsertionFails fails insert stmt s.db) := by
  rintro ⟨hc, hfails⟩
  rcases h with hs' | ⟨-, hc'⟩ | _ | ⟨-, -, hi, hstmt⟩
  · exact absurd (hs.symm.trans hs') Bool.false_ne_true
  · exact hc' hc
  · rcases hfails with h | h
    · exact absurd (hi.symm.trans h) Bool.false_ne_true
    · exact absurd (hstmt.symm.trans h) (Option.some_ne_none _)

theorem db_eq (h : InsertsRow fails dbError select insert count stmt s go s')
    (hs : fails select = true) : s'.db = s.db := by
  rcases h with _ | _ | _ | ⟨hs', -⟩
  · rfl
  · rfl
  · rfl
  · exact absurd (hs'.symm.trans hs) Bool.false_ne_true

end InsertsRow

/-- What the operation of the updates does. -/
theorem InsertsRow.lazyInsert_eq {go : Bool} {s' : InsertState}
    (h : InsertsRow fails dbError select insert count stmt s go s') :
    lazyInsert fails select insert count stmt s.db =
      if go then .ok () s'.db else .error (.fault (some insert)) s'.db := by
  rw [JobProvenance.lazyInsert_eq]
  rcases h with hs | ⟨hs, hc⟩ | ⟨hs, hc, hi | hstmt⟩ | ⟨hs, hc, hi, hstmt⟩
  · rw [if_neg fun h => Bool.noConfusion (hs.symm.trans h.1)]
    rfl
  · rw [if_neg fun h => hc h.2]
    rfl
  · rw [if_pos ⟨hs, hc⟩, expectOne_eq, if_pos hi]
    rfl
  · rw [if_pos ⟨hs, hc⟩, expectOne_eq, hstmt, Option.map_none, ite_self]
    rfl
  · rw [if_pos ⟨hs, hc⟩, expectOne_eq, hstmt, hi]
    rfl

end Steps

/-! ## The operation -/

section Reliable

open Stateful

variable {ctx fails dbError} {ijobs : ℕ} {ps jobid owner : Bytes} {db : IndexDb} {s : InsertState}

/-- How the operation goes. -/
theorem lazyInsertJobRet_cases (hcode : ∀ p, dbError p ≠ 0) :
    ∃ go s', InsertsRow fails dbError (.selectJobid ijobs) (.insertJob ijobs)
        (·.countJobs (ctx.md5 jobid)) (insertJobRow ctx ps jobid owner) s go s' ∧
      (go = false ∧ lazyInsertJobRet ctx fails dbError ijobs ps (some jobid) (some owner) s =
          .ok (dbError (.insertJob ijobs)) s' ∨
        go = true ∧ ∃ go s'', InsertsRow fails dbError (.selectUser ijobs) (.insertUser ijobs)
            (·.countUsers (ctx.md5 owner)) (insertUserRow ctx owner) s' go s'' ∧
          lazyInsertJobRet ctx fails dbError ijobs ps (some jobid) (some owner) s =
            .ok (if go then 0 else dbError (.insertUser ijobs)) s'') := by
  obtain ⟨go, s', hjob, hj⟩ := @selectOrInsert_cases fails dbError s (.selectJobid ijobs)
    (.insertJob ijobs) (·.countJobs (ctx.md5 jobid)) (insertJobRow ctx ps jobid owner) hcode
  refine ⟨go, s', hj, ?_⟩
  rw [lazyInsertJobRet, bind_of_ok hjob]
  cases go with
  | false =>
    cases hj with
    | notInserted => exact .inl ⟨rfl, rfl⟩
  | true =>
    obtain ⟨go, s'', huser, hu⟩ := @selectOrInsert_cases fails dbError s' (.selectUser ijobs)
      (.insertUser ijobs) (·.countUsers (ctx.md5 owner)) (insertUserRow ctx owner) hcode
    refine .inr ⟨rfl, go, s'', hu, ?_⟩
    rw [if_pos rfl, bind_of_ok huser]
    cases go with
    | false =>
      cases hu with
      | notInserted => rfl
    | true => rfl

/-- The operation of the updates does the same to the database, and ends normally exactly
    when zero is returned. -/
theorem lazyInsertJobRet_eq (hcode : ∀ p, dbError p ≠ 0) (jobid owner : Option Bytes) :
    ∃ ret s', lazyInsertJobRet ctx fails dbError ijobs ps jobid owner s = .ok ret s' ∧
      left (lazyInsertJob ctx fails ijobs ps jobid owner s.db) = s'.db ∧
      (error? (lazyInsertJob ctx fails ijobs ps jobid owner s.db) = none ↔ ret = 0) := by
  rcases jobid with _ | jobid
  · exact ⟨_, _, rfl, rfl, iff_of_false (Option.some_ne_none _) (by decide)⟩
  rcases owner with _ | owner
  · exact ⟨_, _, rfl, rfl, iff_of_false (Option.some_ne_none _) (by decide)⟩
  obtain ⟨go, s', hj, ⟨rfl, h⟩ | ⟨rfl, go', s'', hu, h⟩⟩ :=
    @lazyInsertJobRet_cases ctx fails dbError ijobs ps jobid owner s hcode
  · have hjob := hj.lazyInsert_eq
    rw [if_neg Bool.false_ne_true] at hjob
    refine ⟨_, _, h, ?_⟩
    rw [lazyInsertJob, bind_of_error hjob]
    exact ⟨rfl, iff_of_false (Option.some_ne_none _) (hcode _)⟩
  · refine ⟨_, _, h, ?_⟩
    rw [lazyInsertJob, bind_of_ok hj.lazyInsert_eq, hu.lazyInsert_eq]
    cases go' with
    | false => exact ⟨rfl, iff_of_false (Option.some_ne_none _) (hcode _)⟩
    | true => exact ⟨rfl, iff_of_true rfl rfl⟩

theorem job_of_inserts {s' : InsertState} (hs : fails (.selectJobid ijobs) = false)
    (h : InsertsRow fails dbError (.selectJobid ijobs) (.insertJob ijobs)
      (·.countJobs (ctx.md5 jobid)) (insertJobRow ctx ps jobid owner) s true s') :
    ∃ j ∈ s'.db.jobs.rows, j.jobid = ctx.md5 jobid ∧
      (j.ownerid = ctx.md5 owner ∨ j ∈ s.db.jobs.rows) := by
  rcases h with h | ⟨-, hc⟩ | _ | ⟨-, -, -, hstmt⟩
  · exact absurd (hs.symm.trans h) Bool.false_ne_true
  · obtain ⟨j, hj, hid⟩ := List.countP_pos_iff.1 (Nat.pos_of_ne_zero hc)
    exact ⟨j, hj, of_decide_eq_true hid, .inr hj⟩
  · obtain ⟨jobs, hjobs, rfl⟩ := Option.map_eq_some_iff.1 hstmt
    refine ⟨⟨ctx.md5 jobid, jobid, ctx.md5 owner, ps, newColumns ctx⟩, ?_, rfl, .inl rfl⟩
    rw [(Table.insert_eq_some.1 hjobs).2]
    exact List.mem_append_right _ (List.mem_singleton_self _)

theorem user_of_inserts {s' : InsertState} (hs : fails (.selectUser ijobs) = false)
    (h : InsertsRow fails dbError (.selectUser ijobs) (.insertUser ijobs)
      (·.countUsers (ctx.md5 owner)) (insertUserRow ctx owner) s true s') :
    (∃ u ∈ s'.db.users.rows, u.userid = ctx.md5 owner) ∧ s'.db.jobs = s.db.jobs := by
  rcases h with h | ⟨-, hc⟩ | _ | ⟨-, -, -, hstmt⟩
  · exact absurd (hs.symm.trans h) Bool.false_ne_true
  · obtain ⟨u, hu, hid⟩ := List.countP_pos_iff.1 (Nat.pos_of_ne_zero hc)
    exact ⟨⟨u, hu, of_decide_eq_true hid⟩, rfl⟩
  · obtain ⟨users, husers, rfl⟩ := Option.map_eq_some_iff.1 hstmt
    refine ⟨⟨⟨ctx.md5 owner, owner⟩, ?_, rfl⟩, rfl⟩
    rw [(Table.insert_eq_some.1 husers).2]
    exact List.mem_append_right _ (List.mem_singleton_self _)

/-! ## Whether it can be relied on -/

/-- The job and its owner are in a database, and the job is the owner's unless it was there
    before. -/
def BothThere (ctx : IndexContext) (db db' : IndexDb) (jobid owner : Bytes) : Prop :=
  (∃ j ∈ db'.jobs.rows, j.jobid = ctx.md5 jobid ∧
      (j.ownerid = ctx.md5 owner ∨ j ∈ db.jobs.rows)) ∧
    ∃ u ∈ db'.users.rows, u.userid = ctx.md5 owner

/-- The operation returns; zero means that the job and its owner are there, and that no
    statement has failed. -/
def InsertsReliably (ctx : IndexContext) (fails : Statement → Bool) (dbError : Statement → ℤ)
    (ijobs : ℕ) (ps : Bytes) (jobid owner : Option Bytes) (db : IndexDb) (errors : List ℤ) : Prop :=
  ∃ ret s, lazyInsertJobRet ctx fails dbError ijobs ps jobid owner ⟨db, errors, []⟩ = .ok ret s ∧
    (ret = 0 → ∃ o ∈ jobid, ∃ c ∈ owner, BothThere ctx db s.db o c) ∧
    (s.failed ≠ [] → ret ≠ 0)

/-- A query that fails is followed, or preceded, by an insertion that does. -/
def FailuresNoticed (ctx : IndexContext) (fails : Statement → Bool) (ijobs : ℕ) (ps : Bytes)
    (jobid owner : Bytes) (db : IndexDb) : Prop :=
  if fails (.selectJobid ijobs) then
    fails (.selectUser ijobs) = false ∧ db.countUsers (ctx.md5 owner) = 0 ∧
      InsertionFails fails (.insertUser ijobs) (insertUserRow ctx owner) db
  else fails (.selectUser ijobs) = true → db.countJobs (ctx.md5 jobid) = 0 ∧
    InsertionFails fails (.insertJob ijobs) (insertJobRow ctx ps jobid owner) db

theorem insertsReliably_of_ne {jobid owner : Option Bytes} {errors : List ℤ} {ret : ℤ}
    (h : lazyInsertJobRet ctx fails dbError ijobs ps jobid owner ⟨db, errors, []⟩ = .ok ret s)
    (hret : ret ≠ 0) : InsertsReliably ctx fails dbError ijobs ps jobid owner db errors :=
  ⟨ret, s, h, fun h => absurd h hret, fun _ => hret⟩

theorem not_insertsReliably_of_failed {jobid owner : Option Bytes} {errors : List ℤ}
    (h : lazyInsertJobRet ctx fails dbError ijobs ps jobid owner ⟨db, errors, []⟩ = .ok 0 s)
    (hfailed : s.failed ≠ []) :
    ¬InsertsReliably ctx fails dbError ijobs ps jobid owner db errors := by
  rintro ⟨ret, s', h', -, hret⟩
  obtain ⟨rfl, rfl⟩ := EStateM.Result.ok.inj (h.symm.trans h')
  exact hret hfailed rfl

/-- The number can be relied on exactly when no query fails, or an insertion fails as well. -/
theorem insertsReliably_iff (hcode : ∀ p, dbError p ≠ 0) (jobid owner : Option Bytes)
    (errors : List ℤ) : InsertsReliably ctx fails dbError ijobs ps jobid owner db errors ↔
      ∀ o ∈ jobid, ∀ c ∈ owner, FailuresNoticed ctx fails ijobs ps o c db := by
  rcases jobid with _ | jobid
  · exact iff_of_true (insertsReliably_of_ne rfl (by decide)) (by simp)
  rcases owner with _ | owner
  · exact iff_of_true (insertsReliably_of_ne rfl (by decide)) (by simp)
  simp only [Option.mem_def, Option.some.injEq, forall_eq']
  obtain ⟨go, s₁, hj, ⟨rfl, h⟩ | ⟨rfl, go', s₂, hu, h⟩⟩ :=
    @lazyInsertJobRet_cases ctx fails dbError ijobs ps jobid owner ⟨db, errors, []⟩ hcode
  · -- the insertion of the job fails
    refine iff_of_true (insertsReliably_of_ne h (hcode _)) ?_
    cases hj with
    | notInserted hs hc hi =>
      rw [FailuresNoticed, hs]
      exact fun _ => ⟨hc, hi⟩
  cases go' with
  | false =>
    -- the insertion of the owner fails
    refine iff_of_true (insertsReliably_of_ne h (hcode _)) ?_
    rw [FailuresNoticed]
    cases hu with
    | notInserted hs' hc hi =>
      split_ifs with hs
      · rw [hj.db_eq hs] at hc hi
        exact ⟨hs', hc, hi⟩
      · exact fun h => absurd (hs'.symm.trans h) Bool.false_ne_true
  | true =>
    -- zero is returned
    rw [FailuresNoticed]
    cases hs : fails (.selectJobid ijobs) with
    | true =>
      refine iff_of_false (not_insertsReliably_of_failed h
        (hu.failed_ne_nil (.inr (hj.failed_ne_nil (.inl hs))))) fun ⟨hs', hnoticed⟩ => ?_
      rw [← show s₁.db = db from hj.db_eq hs] at hnoticed
      exact hu.not_insertionFails hs' hnoticed
    | false =>
      cases hs' : fails (.selectUser ijobs) with
      | true =>
        exact iff_of_false (not_insertsReliably_of_failed h (hu.failed_ne_nil (.inl hs')))
          fun hnoticed => hj.not_insertionFails hs (hnoticed rfl)
      | false =>
        obtain ⟨huser, hjobs⟩ := user_of_inserts hs' hu
        refine iff_of_true ⟨_, _, h, fun _ => ⟨jobid, rfl, owner, rfl, ?_, huser⟩, fun hfailed => ?_⟩
          fun h => absurd h Bool.false_ne_true
        · rw [hjobs]
          exact job_of_inserts hs hj
        · rw [hu.failed_eq hs', hj.failed_eq hs] at hfailed
          exact absurd rfl hfailed

/-- Nothing fails, and both are inserted. -/
theorem insertsReliably_iff_sample :
    InsertsReliably (sampleServer true) (fun _ => false) (fun _ => 5) 0 (ascii "ps")
        (some (ascii "https://lb/new")) (some (ascii "bob")) sampleIndexDb [] ↔
      ∀ o ∈ some (ascii "https://lb/new"), ∀ c ∈ some (ascii "bob"),
        FailuresNoticed (sampleServer true) (fun _ => false) 0 (ascii "ps") o c sampleIndexDb :=
  insertsReliably_iff (fun _ => (by decide : (5 : ℤ) ≠ 0)) _ _ _

/-- When the query for the job fails, and the owner is there, the job is not inserted, and zero
    is returned. -/
theorem not_insertsReliably_noAnswer :
    ¬InsertsReliably (sampleServer true) (· = .selectJobid 0) (fun _ => 5) 0 (ascii "ps")
      (some (ascii "https://lb/new")) (some (ascii "/CN=alice")) sampleIndexDb [] :=
  not_insertsReliably_of_failed (s := ⟨sampleIndexDb, [5], [.selectJobid 0]⟩) rfl
    (List.cons_ne_nil _ _)

end Reliable

end JobProvenance
