import JobProvenance.Common.Schema
import JobProvenance.Lib.System
import JobProvenance.Primary.Backend

/-!
# Uploads

Registering jobs and uploading their files, statement by statement: every call
is a sequence of SQL statements, and the statements of different calls come in
any order, with any clock.

* `Proc`: a call in progress, by its next statement; `execStmt` executes it;
* `uploadSystem`: the calls of any number of clients;
* `Kept`: what every reachable state has: paths are those of their keys, and a
  committed file has no deadline;
* `committed_forever`: a committed file stays as it is, and nobody may write it;
* `commit_identity`: a file is committed by the client that started its upload,
  as long as nobody else starts one between the check and the update of a
  commit; `commit_takeover` is what happens otherwise.
-/

namespace JobProvenance

/-! ## The tables -/

/-- The state of a file. -/
inductive FileState
  | uploading
  | committed
  deriving DecidableEq

/-- A row of the table `files`. -/
structure FileRow where
  jobid : Bytes
  filename : Bytes
  intPath : Bytes
  extUrl : Bytes
  state : FileState
  deadline : Option ℤ
  ulUserid : Bytes
  deriving DecidableEq

/-- The keys of `jobs`. -/
def JobRow.Clash (a b : JobRow) : Prop := a.jobid = b.jobid ∨ a.dgJobid = b.dgJobid

/-- The key of `files`. -/
def FileRow.Clash (a b : FileRow) : Prop := a.jobid = b.jobid ∧ a.filename = b.filename

instance : DecidableRel JobRow.Clash := fun _ _ => inferInstanceAs (Decidable (_ ∨ _))

instance : DecidableRel FileRow.Clash := fun _ _ => inferInstanceAs (Decidable (_ ∧ _))

instance : Std.Symm JobRow.Clash := ⟨fun _ _ => Or.imp Eq.symm Eq.symm⟩

instance : Std.Symm FileRow.Clash := ⟨fun _ _ h => ⟨h.1.symm, h.2.symm⟩⟩

/-- The tables the uploads use. -/
structure Tables where
  jobs : Table JobRow JobRow.Clash
  files : Table FileRow FileRow.Clash
  users : Table UserRow UserRow.Clash

/-- The name of the client of a context. -/
def peerName (peer : Option Bytes) : Bytes := peer.getD (ascii "unknown")

/-! ## Calls and their statements -/

/-- A call in progress, by its next statement: the first two belong to
    `register_job`, the next four to `start_upload`, the last two to
    `commit_upload`. -/
inductive Proc
  | storeOwner (row : JobRow) (owner : Bytes)
  | insertJob (row : JobRow)
  | selectJob (ju cls : Bytes) (name : Option Bytes) (peername : Bytes)
  | storePeer (row : FileRow) (peername : Bytes)
  | deleteExpired (row : FileRow)
  | insertFile (row : FileRow)
  | selectUpload (destination peername : Bytes)
  | commitFile (jobid filename peername : Bytes)
  deriving DecidableEq

/-- A call that is in progress, or has returned. -/
inductive Outcome
  | next (p : Proc)
  | done (ret : Ret)
  deriving DecidableEq

variable (config : Config) (md5 : Bytes → Bytes)

/-- `register_job` up to its first statement. -/
def registerJob (job owner : Bytes) (regTime : ℤ) : Exec Outcome := do
  let ju ← jobidUniquePathname job true
  return .next (.storeOwner ⟨ju, job, md5 owner, regTime⟩ owner)

/-- `start_upload` up to its first statement. -/
def startUpload (job cls : Bytes) (name peer : Option Bytes) : Exec Outcome := do
  let ju ← jobidUniquePathname job true
  return .next (.selectJob ju cls name (peerName peer))

/-- `commit_upload` up to its first statement. -/
def commitUpload (destination : Bytes) (peer : Option Bytes) : Exec Outcome :=
  .ok (.next (.selectUpload destination (peerName peer)))

/-- Inserts a user; that it is there already is no failure. -/
def storeUser (t : Tables) (userid subj : Bytes) : Tables :=
  { t with users := (t.users.insert ⟨userid, subj⟩).getD t.users }

/-- Whether the upload of a file has expired. -/
def FileRow.expired (now : ℤ) (f : FileRow) : Bool :=
  f.state = .uploading ∧ ∃ d ∈ f.deadline, d < now

/-- The file of a key becomes committed. -/
def commitRow (jobid filename : Bytes) (f : FileRow) : FileRow :=
  if f.jobid = jobid ∧ f.filename = filename then { f with state := .committed, deadline := none }
  else f

theorem commitRow_clash (jobid filename : Bytes) (a b : FileRow)
    (h : (commitRow jobid filename a).Clash (commitRow jobid filename b)) : a.Clash b := by
  have hkey : ∀ f, (commitRow jobid filename f).jobid = f.jobid ∧
      (commitRow jobid filename f).filename = f.filename := fun f => by
    unfold commitRow
    split_ifs <;> exact ⟨rfl, rfl⟩
  exact ⟨(hkey a).1 ▸ (hkey b).1 ▸ h.1, (hkey a).2 ▸ (hkey b).2 ▸ h.2⟩

/-- The update of a commit. -/
def commitRows (files : Table FileRow FileRow.Clash) (jobid filename : Bytes) :
    Table FileRow FileRow.Clash :=
  files.update (commitRow jobid filename) (commitRow_clash jobid filename)

theorem mem_commitRows {files : Table FileRow FileRow.Clash} {jobid filename : Bytes} {g : FileRow} :
    g ∈ (commitRows files jobid filename).rows ↔
      ∃ f ∈ files.rows, commitRow jobid filename f = g := Table.mem_update

/-- Executes the next statement of a call and what the call does up to the one
    behind it, at the time `now`. -/
def execStmt (now : ℤ) (t : Tables) : Proc → Tables × Outcome
  | .storeOwner row owner => (storeUser t row.owner owner, .next (.insertJob row))
  | .insertJob row =>
    match t.jobs.insert row with
    | some jobs => ({ t with jobs }, .done none)
    | none => (t, .done (some .EEXIST))
  | .selectJob ju cls name peername =>
    match t.jobs.rows.find? (·.jobid = ju) with
    | none => (t, .done (some .ENOENT))
    | some row =>
      let basename := dataBasename cls name
      (t, .next (.storePeer
        { jobid := ju
          filename := basename
          intPath := dataPath config.internalPath row.owner row.regTime ju basename
          extUrl := dataPath config.externalPath row.owner row.regTime ju basename
          state := .uploading
          deadline := some (now + 5 * 60)
          ulUserid := md5 peername } peername))
  | .storePeer row peername => (storeUser t row.ulUserid peername, .next (.deleteExpired row))
  | .deleteExpired row =>
    ({ t with files := t.files.delete fun f => f.jobid = row.jobid ∧ f.expired now },
      .next (.insertFile row))
  | .insertFile row =>
    match t.files.insert row with
    | some files => ({ t with files }, .done none)
    | none => (t, .done (some .EEXIST))
  | .selectUpload destination peername =>
    match t.files.rows.find? fun f => f.extUrl = destination ∧ f.state = .uploading with
    | none => (t, .done (some .ENOENT))
    | some f =>
      if md5 peername ≠ f.ulUserid then (t, .done (some .EPERM))
      else (t, .next (.commitFile f.jobid f.filename peername))
  | .commitFile jobid filename _ =>
    ({ t with files := commitRows t.files jobid filename }, .done none)

/-! ## Runs -/

/-- The tables and the calls, in the order in which they started. -/
structure UploadState where
  tables : Tables
  calls : List Outcome

/-- What a client asks for. -/
inductive Request
  | registerJob (job owner : Bytes) (regTime : ℤ)
  | startUpload (job cls : Bytes) (name peer : Option Bytes)
  | commitUpload (destination : Bytes) (peer : Option Bytes)

/-- The call of a request. -/
def Request.call : Request → Exec Outcome
  | .registerJob job owner regTime => JobProvenance.registerJob md5 job owner regTime
  | .startUpload job cls name peer => JobProvenance.startUpload job cls name peer
  | .commitUpload destination peer => JobProvenance.commitUpload destination peer

/-- A step: a call starts, or the call of a number executes its next statement
    or fails (the database refuses the statement, or the server dies). -/
inductive UploadAction
  | call (request : Request)
  | exec (i : ℕ) (now : ℤ)
  | fail (i : ℕ)

/-- The step of an action, if it can be taken. -/
def uploadStep (s : UploadState) : UploadAction → Option UploadState
  | .call request =>
    match request.call md5 with
    | .ok outcome => some { s with calls := s.calls ++ [outcome] }
    | .error (.errno e) => some { s with calls := s.calls ++ [.done (some e)] }
    | .error _ => none
  | .exec i now =>
    match s.calls[i]? with
    | some (.next p) =>
      let (tables, outcome) := execStmt config md5 now s.tables p
      some ⟨tables, s.calls.set i outcome⟩
    | _ => none
  | .fail i =>
    match s.calls[i]? with
    | some (.next _) => some { s with calls := s.calls.set i (.done (some Errno.EIO)) }
    | _ => none

/-- The primary storage, started with empty tables. -/
def uploadSystem : System UploadState UploadAction where
  init s := s = ⟨⟨.empty, .empty, .empty⟩, []⟩
  step s a t := uploadStep config md5 s a = some t

/-! ## What the tables keep -/

section Kept

variable {config md5} {t : Tables} {s s' : UploadState} {f g : FileRow} {p : Proc} {now : ℤ}

/-- A job whose key is the unique part of its identifier, and whose directory has
    the slashes of its path and no others. -/
structure JobRow.Kept (row : JobRow) : Prop where
  jobid : afterLast (ch '/') row.dgJobid = some row.jobid
  owner : ch '/' ∉ row.owner

/-- The paths of a file are those of its key. -/
def FileRow.Placed (config : Config) (f : FileRow) : Prop :=
  ∃ owner regTime, ch '/' ∉ owner ∧ ch '/' ∉ f.jobid ∧
    f.intPath = dataPath config.internalPath owner regTime f.jobid f.filename ∧
    f.extUrl = dataPath config.externalPath owner regTime f.jobid f.filename

/-- What the tables keep. -/
structure Tables.Kept (config : Config) (t : Tables) : Prop where
  jobs : ∀ row ∈ t.jobs.rows, row.Kept
  placed : ∀ f ∈ t.files.rows, f.Placed config
  deadline : ∀ f ∈ t.files.rows, f.state = .committed → f.deadline = none

/-- What a call in progress will write keeps it. -/
def Proc.Kept (config : Config) : Proc → Prop
  | .storeOwner row _ | .insertJob row => row.Kept
  | .storePeer row _ | .deleteExpired row | .insertFile row =>
    row.Placed config ∧ row.state = .uploading
  | .selectJob .. | .selectUpload .. | .commitFile .. => True

/-- What every reachable state has. -/
structure UploadState.Kept (config : Config) (s : UploadState) : Prop where
  tables : s.tables.Kept config
  calls : ∀ p, .next p ∈ s.calls → p.Kept config

/-- A path below the storage determines the key of the file. -/
theorem dataPath_inj {root owner owner' ju ju' basename basename' : Bytes} {regTime regTime' : ℤ}
    (ho : ch '/' ∉ owner) (ho' : ch '/' ∉ owner') (hj : ch '/' ∉ ju) (hj' : ch '/' ∉ ju')
    (h : dataPath root owner regTime ju basename = dataPath root owner' regTime' ju' basename') :
    ju = ju' ∧ basename = basename' := by
  have hw : ∀ z, ch '/' ∉ printDec z := fun z => notMem_printDec (by decide) (by decide)
  simp only [dataPath, dataDir, List.append_assoc, List.cons_append, List.append_cancel_left_eq] at h
  obtain ⟨-, h⟩ := append_cons_inj ho ho' h
  obtain ⟨-, h⟩ := append_cons_inj (hw _) (hw _) h
  exact append_cons_inj hj hj' h

/-- Two files of one path are one file. -/
theorem Tables.Kept.eq_of_intPath (ht : t.Kept config) (hf : f ∈ t.files.rows)
    (hg : g ∈ t.files.rows) (h : f.intPath = g.intPath) : f = g := by
  obtain ⟨owner, regTime, ho, hj, hp, -⟩ := ht.placed f hf
  obtain ⟨owner', regTime', ho', hj', hp', -⟩ := ht.placed g hg
  rw [hp, hp'] at h
  exact Table.eq_of_clash hf hg (dataPath_inj ho ho' hj hj' h)

/-- Two files of one URL have one key. -/
theorem FileRow.Placed.clash_of_extUrl (hf : f.Placed config) (hg : g.Placed config)
    (h : f.extUrl = g.extUrl) : f.Clash g := by
  obtain ⟨owner, regTime, ho, hj, -, hp⟩ := hf
  obtain ⟨owner', regTime', ho', hj', -, hp'⟩ := hg
  rw [hp, hp'] at h
  exact dataPath_inj ho ho' hj hj' h

/-- So they are one file. -/
theorem Tables.Kept.eq_of_extUrl (ht : t.Kept config) (hf : f ∈ t.files.rows)
    (hg : g ∈ t.files.rows) (h : f.extUrl = g.extUrl) : f = g :=
  Table.eq_of_clash hf hg ((ht.placed f hf).clash_of_extUrl (ht.placed g hg) h)

/-- The files do not depend on the users. -/
theorem Tables.Kept.storeUser (ht : t.Kept config) (userid subj : Bytes) :
    (JobProvenance.storeUser t userid subj).Kept config := ⟨ht.jobs, ht.placed, ht.deadline⟩

theorem Tables.Kept.insertFile {files : Table FileRow FileRow.Clash} (ht : t.Kept config)
    (hf : f.Placed config) (hs : f.state = .uploading) (hi : t.files.insert f = some files) :
    ({ t with files } : Tables).Kept config := by
  obtain ⟨-, hrows⟩ := Table.insert_eq_some.1 hi
  refine ⟨ht.jobs, fun g hg => ?_, fun g hg hc => ?_⟩ <;>
    rcases List.mem_append.1 (hrows ▸ hg) with hg | hg
  · exact ht.placed g hg
  · exact List.mem_singleton.1 hg ▸ hf
  · exact ht.deadline g hg hc
  · rw [List.mem_singleton.1 hg, hs] at hc
    cases hc

/-- Every statement keeps what the tables keep, and leaves the call ready for
    its next one. -/
theorem execStmt_kept (ht : t.Kept config) (hp : p.Kept config) :
    (execStmt config md5 now t p).1.Kept config ∧
      ∀ p', (execStmt config md5 now t p).2 = .next p' → p'.Kept config := by
  cases p with
  | storeOwner row owner =>
    refine ⟨ht.storeUser _ _, ?_⟩
    rintro _ ⟨⟩
    exact hp
  | insertJob row =>
    simp only [execStmt]
    split
    · rename_i jobs hi
      obtain ⟨-, hrows⟩ := Table.insert_eq_some.1 hi
      refine ⟨⟨fun row' hr => ?_, ht.placed, ht.deadline⟩, by rintro _ ⟨⟩⟩
      rcases List.mem_append.1 (hrows ▸ hr) with hr | hr
      · exact ht.jobs row' hr
      · exact List.mem_singleton.1 hr ▸ hp
    · exact ⟨ht, by rintro _ ⟨⟩⟩
  | selectJob ju cls name peername =>
    simp only [execStmt]
    split
    · exact ⟨ht, by rintro _ ⟨⟩⟩
    · rename_i row hrow
      have hju : row.jobid = ju := by simpa using List.find?_some hrow
      have hrow := ht.jobs row (List.mem_of_find?_eq_some hrow)
      refine ⟨ht, ?_⟩
      rintro _ ⟨⟩
      refine ⟨⟨row.owner, row.regTime, hrow.owner, ?_, rfl, rfl⟩, rfl⟩
      exact hju ▸ notMem_of_afterLast hrow.jobid
  | storePeer row peername =>
    refine ⟨ht.storeUser _ _, ?_⟩
    rintro _ ⟨⟩
    exact hp
  | deleteExpired row =>
    refine ⟨⟨ht.jobs, fun g hg => ht.placed g (Table.mem_delete.1 hg).1,
      fun g hg => ht.deadline g (Table.mem_delete.1 hg).1⟩, ?_⟩
    rintro _ ⟨⟩
    exact hp
  | insertFile row =>
    simp only [execStmt]
    split
    · rename_i files hi
      exact ⟨ht.insertFile hp.1 hp.2 hi, by rintro _ ⟨⟩⟩
    · exact ⟨ht, by rintro _ ⟨⟩⟩
  | selectUpload destination peername =>
    simp only [execStmt]
    split
    · exact ⟨ht, by rintro _ ⟨⟩⟩
    · split_ifs
      · exact ⟨ht, by rintro _ ⟨⟩⟩
      · exact ⟨ht, by rintro _ ⟨⟩; trivial⟩
  | commitFile jobid filename peername =>
    refine ⟨⟨ht.jobs, fun g hg => ?_, fun g hg => ?_⟩, by rintro _ ⟨⟩⟩ <;>
      obtain ⟨f, hf, rfl⟩ := mem_commitRows.1 hg <;> unfold commitRow <;> split_ifs
    · exact ht.placed f hf
    · exact ht.placed f hf
    · exact fun _ => rfl
    · exact ht.deadline f hf

/-- No statement deletes or changes a committed file. -/
theorem execStmt_committed (ht : t.Kept config) (hf : f ∈ t.files.rows) (hc : f.state = .committed) :
    f ∈ (execStmt config md5 now t p).1.files.rows := by
  cases p with
  | storeOwner row owner => exact hf
  | storePeer row peername => exact hf
  | insertJob row =>
    simp only [execStmt]
    split <;> exact hf
  | selectJob ju cls name peername =>
    simp only [execStmt]
    split <;> exact hf
  | selectUpload destination peername =>
    simp only [execStmt]
    split
    · exact hf
    · split_ifs <;> exact hf
  | deleteExpired row =>
    exact Table.mem_delete.2 ⟨hf, by simp [FileRow.expired, hc]⟩
  | insertFile row =>
    simp only [execStmt]
    split
    · rename_i files hi
      rw [(Table.insert_eq_some.1 hi).2]
      exact List.mem_append_left _ hf
    · exact hf
  | commitFile jobid filename peername =>
    refine mem_commitRows.2 ⟨f, hf, ?_⟩
    -- the row has no deadline any more
    have hd := ht.deadline f hf hc
    unfold commitRow
    split_ifs
    · cases f
      simp_all
    · rfl

/-- A step executes a statement of a call, or changes no table. -/
theorem uploadStep_cases {a : UploadAction} (h : uploadStep config md5 s a = some s') :
    (∃ i now p, a = .exec i now ∧ s.calls[i]? = some (.next p) ∧
      s' = ⟨(execStmt config md5 now s.tables p).1,
        s.calls.set i (execStmt config md5 now s.tables p).2⟩) ∨
    (∃ request outcome, a = .call request ∧ request.call md5 = .ok outcome ∧
      s' = { s with calls := s.calls ++ [outcome] }) ∨
    (∃ request ret, a = .call request ∧ s' = { s with calls := s.calls ++ [.done ret] }) ∨
    ∃ i ret, a = .fail i ∧ s' = { s with calls := s.calls.set i (.done ret) } := by
  cases a with
  | call request =>
    simp only [uploadStep] at h
    split at h
    · rename_i hr
      exact .inr (.inl ⟨request, _, rfl, hr, (Option.some.inj h).symm⟩)
    · exact .inr (.inr (.inl ⟨request, _, rfl, (Option.some.inj h).symm⟩))
    · cases h
  | exec i now =>
    simp only [uploadStep] at h
    split at h
    · rename_i p hi
      exact .inl ⟨i, now, p, rfl, hi, (Option.some.inj h).symm⟩
    · cases h
  | fail i =>
    simp only [uploadStep] at h
    split at h
    · exact .inr (.inr (.inr ⟨i, _, rfl, (Option.some.inj h).symm⟩))
    · cases h

/-- The first statement of a call. -/
theorem call_eq_ok {request : Request} {outcome : Outcome} (h : request.call md5 = .ok outcome) :
    (∃ row owner, row.owner = md5 owner ∧ afterLast (ch '/') row.dgJobid = some row.jobid ∧
      outcome = .next (.storeOwner row owner)) ∨
    (∃ ju cls name peername, outcome = .next (.selectJob ju cls name peername)) ∨
    ∃ destination peername, outcome = .next (.selectUpload destination peername) := by
  cases request with
  | registerJob job owner regTime =>
    obtain ⟨ju, hj, h⟩ := Exec.bind_eq_ok.1 h
    exact .inl ⟨_, _, rfl, afterLast_of_jobidUniquePathname hj, (Except.ok.inj h).symm⟩
  | startUpload job cls name peer =>
    obtain ⟨ju, -, h⟩ := Exec.bind_eq_ok.1 h
    exact .inr (.inl ⟨_, _, _, _, (Except.ok.inj h).symm⟩)
  | commitUpload destination peer => exact .inr (.inr ⟨_, _, (Except.ok.inj h).symm⟩)

/-- A call that changes leaves the others as they are. -/
theorem UploadState.Kept.set {tables : Tables} {i : ℕ} {outcome : Outcome} (hs : s.Kept config)
    (ht : tables.Kept config) (ho : ∀ p, outcome = .next p → p.Kept config) :
    UploadState.Kept config ⟨tables, s.calls.set i outcome⟩ := by
  refine ⟨ht, fun p hp => ?_⟩
  rcases List.mem_or_eq_of_mem_set hp with hp | hp
  · exact hs.calls p hp
  · exact ho p hp.symm

theorem UploadState.Kept.append {outcome : Outcome} (hs : s.Kept config)
    (ho : ∀ p, outcome = .next p → p.Kept config) :
    UploadState.Kept config { s with calls := s.calls ++ [outcome] } := by
  refine ⟨hs.tables, fun p hp => ?_⟩
  rcases List.mem_append.1 hp with hp | hp
  · exact hs.calls p hp
  · exact ho p (List.mem_singleton.1 hp).symm

/-- Every step keeps what reachable states have. -/
theorem UploadState.Kept.step (hmd5 : ∀ s, ch '/' ∉ md5 s) {a : UploadAction} (hs : s.Kept config)
    (h : (uploadSystem config md5).step s a s') : s'.Kept config := by
  obtain ⟨i, now, p, -, hi, rfl⟩ | ⟨request, outcome, -, hr, rfl⟩ | ⟨request, ret, -, rfl⟩ |
    ⟨i, ret, -, rfl⟩ := uploadStep_cases h
  · have hexec := @execStmt_kept config md5 s.tables p now hs.tables
      (hs.calls p (List.mem_of_getElem? hi))
    exact hs.set hexec.1 hexec.2
  · refine hs.append ?_
    obtain ⟨row, owner, ho, hj, rfl⟩ | ⟨ju, cls, name, peername, rfl⟩ | ⟨dest, peername, rfl⟩ :=
      call_eq_ok hr
    · rintro _ ⟨⟩
      exact ⟨hj, ho ▸ hmd5 owner⟩
    · rintro _ ⟨⟩
      trivial
    · rintro _ ⟨⟩
      trivial
  · exact hs.append (by rintro _ ⟨⟩)
  · exact hs.set hs.tables (by rintro _ ⟨⟩)

theorem UploadState.Kept.of_reachable (hmd5 : ∀ s, ch '/' ∉ md5 s)
    {ok : UploadState → UploadAction → Prop} (hs : (uploadSystem config md5).Reachable ok s) :
    s.Kept config := by
  refine hs.invariant (fun s hs => ?_) fun s a t hs _ hst => hs.step hmd5 hst
  obtain rfl : s = _ := hs
  exact ⟨⟨by simp [Table.empty], by simp [Table.empty], by simp [Table.empty]⟩, by simp⟩

end Kept

/-! ## Writing a file -/

/-- The path of the object a client wants to access: what follows the host. -/
def objectPath (object : Bytes) : Option Bytes := do
  let p ← strstr (ascii "ftp://") object
  -- without a further slash the path is a null pointer
  match (p.drop 6).dropWhile (· ≠ ch '/') with
  | [] => some nullText
  | path => some path

/-- Whether a client may write an object: who started an upload may, while it is
    in progress. -/
def authzWrite (t : Tables) (object client : Bytes) : Except Bytes Unit :=
  match objectPath object with
  | none => .error (ascii "Unsupported file type, access denied")
  | some p =>
    match t.files.rows.find? fun f => f.intPath = p ∧
      ∃ u ∈ t.users.rows, f.ulUserid = u.userid ∧ u.certSubj = client with
    | none => .error (ascii "No such file registered")
    | some f => if f.state = .uploading then .ok () else .error (ascii "Upload not in progress")

section Committed

variable {config md5} {s t : UploadState} {f : FileRow}

/-- Nobody may write a committed file. -/
theorem authzWrite_committed (hs : s.Kept config) (hf : f ∈ s.tables.files.rows)
    (hc : f.state = .committed) {object : Bytes} (hp : objectPath object = some f.intPath)
    (client : Bytes) : authzWrite s.tables object client ≠ .ok () := by
  simp only [authzWrite, hp]
  split
  · simp
  · rename_i g hg
    have hpath : g.intPath = f.intPath := by
      have := List.find?_some hg
      simp only [decide_eq_true_eq] at this
      exact this.1
    rw [hs.tables.eq_of_intPath (List.mem_of_find?_eq_some hg) hf hpath, if_neg (by simp [hc])]
    simp

/-- A committed file stays, and nobody may write it. -/
theorem committed_kept (hmd5 : ∀ s, ch '/' ∉ md5 s)
    (hs : (uploadSystem config md5).Reachable System.Always s) (hf : f ∈ s.tables.files.rows)
    (hc : f.state = .committed) (hst : (uploadSystem config md5).Steps System.Always s t) :
    f ∈ t.tables.files.rows ∧ ∀ object client, objectPath object = some f.intPath →
      authzWrite t.tables object client ≠ .ok () := by
  have hkept : t.Kept config := .of_reachable hmd5 (hs.steps hst)
  have hmem : t.Kept config ∧ f ∈ t.tables.files.rows := by
    refine hst.preserves (I := fun t => t.Kept config ∧ f ∈ t.tables.files.rows) ?_
      ⟨.of_reachable hmd5 hs, hf⟩
    rintro s a t ⟨hs, hf⟩ - hst
    refine ⟨hs.step hmd5 hst, ?_⟩
    obtain ⟨i, now, p, -, hi, rfl⟩ | ⟨request, outcome, -, hr, rfl⟩ | ⟨request, ret, -, rfl⟩ |
      ⟨i, ret, -, rfl⟩ := uploadStep_cases hst
    · exact execStmt_committed hs.tables hf hc
    all_goals exact hf
  exact ⟨hmem.2, fun object client hp => authzWrite_committed hkept hmem.2 hc hp client⟩

/-- A committed file stays as it is in every later state, and nobody may write
    it. -/
theorem committed_forever (hmd5 : ∀ s, ch '/' ∉ md5 s)
    (hs : (uploadSystem config md5).Reachable System.Always s) (hf : f ∈ s.tables.files.rows)
    (hc : f.state = .committed) (hst : (uploadSystem config md5).Steps System.Always s t) :
    f ∈ t.tables.files.rows ∧ ∀ object client, objectPath object = some f.intPath →
      authzWrite t.tables object client ≠ .ok () :=
  committed_kept hmd5 hs hf hc hst

end Committed

/-! ## Who commits a file -/

/-- A call that is about to commit the file of a row's key is one of the client
    the row records. -/
def Outcome.Agrees (md5 : Bytes → Bytes) (row : FileRow) : Outcome → Prop
  | .next (.commitFile jobid filename peername) =>
    row.jobid = jobid → row.filename = filename → row.ulUserid = md5 peername
  | _ => True

instance (md5 : Bytes → Bytes) (row : FileRow) : DecidablePred (Outcome.Agrees md5 row)
  | .next (.commitFile ..) => inferInstanceAs (Decidable (_ → _))
  | .next (.storeOwner ..) | .next (.insertJob ..) | .next (.selectJob ..)
  | .next (.storePeer ..) | .next (.deleteExpired ..) | .next (.insertFile ..)
  | .next (.selectUpload ..) | .done _ => inferInstanceAs (Decidable True)

/-- The row a step would insert. -/
def UploadState.nextInsert (s : UploadState) : UploadAction → Option FileRow
  | .exec i _ =>
    match s.calls[i]? with
    | some (.next (.insertFile row)) => some row
    | _ => none
  | _ => none

/-- No client starts an upload of a file while another one, whose identity was
    checked already, is about to commit it. -/
def NoTakeover (md5 : Bytes → Bytes) (s : UploadState) (a : UploadAction) : Prop :=
  ∀ row ∈ s.nextInsert a, (∀ f ∈ s.tables.files.rows, ¬f.Clash row) →
    ∀ c ∈ s.calls, c.Agrees md5 row

instance (md5 : Bytes → Bytes) (s : UploadState) (a : UploadAction) :
    Decidable (NoTakeover md5 s a) := inferInstanceAs (Decidable (∀ row ∈ s.nextInsert a, _))

/-- Every call that is about to commit a file is one of the client its row
    records. -/
def Checked (md5 : Bytes → Bytes) (s : UploadState) : Prop :=
  ∀ f ∈ s.tables.files.rows, ∀ c ∈ s.calls, c.Agrees md5 f

section Identity

variable {config md5} {s t : UploadState} {tables : Tables} {f g : FileRow} {p : Proc} {now : ℤ}

theorem commitRow_key (jobid filename : Bytes) (f : FileRow) :
    (commitRow jobid filename f).jobid = f.jobid ∧
      (commitRow jobid filename f).filename = f.filename ∧
      (commitRow jobid filename f).ulUserid = f.ulUserid := by
  unfold commitRow
  split_ifs <;> exact ⟨rfl, rfl, rfl⟩

/-- The files after a statement: those before, perhaps committed, or the one it
    inserts under a new key. -/
theorem mem_execStmt_files (hg : g ∈ (execStmt config md5 now tables p).1.files.rows) :
    g ∈ tables.files.rows ∨
    (∃ f ∈ tables.files.rows, ∃ peername, p = .commitFile f.jobid f.filename peername ∧
      g = commitRow f.jobid f.filename f) ∨
    (p = .insertFile g ∧ ∀ f ∈ tables.files.rows, ¬f.Clash g) := by
  cases p with
  | storeOwner row owner => exact .inl hg
  | storePeer row peername => exact .inl hg
  | insertJob row =>
    simp only [execStmt] at hg
    split at hg <;> exact .inl hg
  | selectJob ju cls name peername =>
    simp only [execStmt] at hg
    split at hg <;> exact .inl hg
  | selectUpload destination peername =>
    simp only [execStmt] at hg
    split at hg
    · exact .inl hg
    · split_ifs at hg <;> exact .inl hg
  | deleteExpired row => exact .inl (Table.mem_delete.1 hg).1
  | insertFile row =>
    simp only [execStmt] at hg
    split at hg
    · rename_i files hi
      obtain ⟨hno, hrows⟩ := Table.insert_eq_some.1 hi
      rcases List.mem_append.1 (hrows ▸ hg) with hg | hg
      · exact .inl hg
      · obtain rfl := List.mem_singleton.1 hg
        exact .inr (.inr ⟨rfl, hno⟩)
    · exact .inl hg
  | commitFile jobid filename peername =>
    obtain ⟨f, hf, rfl⟩ := mem_commitRows.1 hg
    by_cases hkey : f.jobid = jobid ∧ f.filename = filename
    · obtain ⟨rfl, rfl⟩ := hkey
      exact .inr (.inl ⟨f, hf, peername, rfl, rfl⟩)
    · rw [commitRow, if_neg hkey]
      exact .inl hf

/-- A call gets ready to commit a file when its client is the one the file
    records. -/
theorem execStmt_commit {jobid filename peername : Bytes}
    (h : (execStmt config md5 now tables p).2 = .next (.commitFile jobid filename peername)) :
    (execStmt config md5 now tables p).1 = tables ∧ ∃ f ∈ tables.files.rows,
      f.jobid = jobid ∧ f.filename = filename ∧ f.ulUserid = md5 peername := by
  cases p with
  | storeOwner row owner => cases h
  | storePeer row peername => cases h
  | deleteExpired row => cases h
  | commitFile jobid filename peername => cases h
  | insertJob row =>
    simp only [execStmt] at h
    split at h <;> cases h
  | insertFile row =>
    simp only [execStmt] at h
    split at h <;> cases h
  | selectJob ju cls name peername =>
    simp only [execStmt] at h
    split at h <;> cases h
  | selectUpload destination peername' =>
    simp only [execStmt] at h ⊢
    split at h
    · cases h
    · rename_i f hf
      split_ifs at h ⊢ with hid
      · cases h
        exact ⟨rfl, f, List.mem_of_find?_eq_some hf, rfl, rfl, (not_not.1 hid).symm⟩

theorem Outcome.Agrees.congr {c : Outcome} (h : c.Agrees md5 f) (hj : f.jobid = g.jobid)
    (hn : f.filename = g.filename) (hu : f.ulUserid = g.ulUserid) : c.Agrees md5 g := by
  cases c with
  | done ret => trivial
  | next p =>
    cases p with
    | commitFile jobid filename peername =>
      exact fun hj' hn' => hu ▸ h (hj.trans hj') (hn.trans hn')
    | _ => trivial

/-- Every step without a takeover keeps the calls checked. -/
theorem Checked.step {a : UploadAction} (hs : Checked md5 s) (ha : NoTakeover md5 s a)
    (h : (uploadSystem config md5).step s a t) : Checked md5 t := by
  have happ : ∀ outcome : Outcome, (∀ jobid filename peername,
      outcome ≠ .next (.commitFile jobid filename peername)) →
      ∀ f, outcome.Agrees md5 f := by
    intro outcome ho f
    cases outcome with
    | done ret => trivial
    | next p =>
      cases p with
      | commitFile jobid filename peername => exact absurd rfl (ho jobid filename peername)
      | _ => trivial
  obtain ⟨i, now, p, rfl, hi, rfl⟩ | ⟨request, outcome, -, hr, rfl⟩ | ⟨request, ret, -, rfl⟩ |
    ⟨i, ret, -, rfl⟩ := uploadStep_cases h
  · have hold : ∀ g ∈ (execStmt config md5 now s.tables p).1.files.rows, ∀ c ∈ s.calls,
        c.Agrees md5 g := by
      intro g hg c hc
      obtain hg | ⟨f, hf, peername, rfl, rfl⟩ | ⟨rfl, hno⟩ := mem_execStmt_files hg
      · exact hs g hg c hc
      · obtain ⟨hj, hn, hu⟩ := commitRow_key f.jobid f.filename f
        exact (hs f hf c hc).congr hj.symm hn.symm hu.symm
      · exact ha g (by simp [UploadState.nextInsert, hi]) hno c hc
    intro g hg c hc
    rcases List.mem_or_eq_of_mem_set hc with hc | rfl
    · exact hold g hg c hc
    · cases hout : (execStmt config md5 now s.tables p).2 with
      | done ret => trivial
      | next p' =>
        cases p' with
        | commitFile jobid filename peername =>
          obtain ⟨ht, f, hf, rfl, rfl, hu⟩ := execStmt_commit hout
          intro hj hn
          -- the key has one row, the one the check was made on
          have hg : g ∈ s.tables.files.rows := ht ▸ hg
          rw [Table.eq_of_clash hg hf ⟨hj, hn⟩, hu]
        | _ => trivial
  · intro f hf c hc
    rcases List.mem_append.1 hc with hc | hc
    · exact hs f hf c hc
    · obtain rfl := List.mem_singleton.1 hc
      refine happ _ (fun jobid filename peername ho => ?_) f
      obtain ⟨_, _, -, -, rfl⟩ | ⟨_, _, _, _, rfl⟩ | ⟨_, _, rfl⟩ := call_eq_ok hr <;> cases ho
  · intro f hf c hc
    rcases List.mem_append.1 hc with hc | hc
    · exact hs f hf c hc
    · exact List.mem_singleton.1 hc ▸ trivial
  · intro f hf c hc
    rcases List.mem_or_eq_of_mem_set hc with hc | rfl
    · exact hs f hf c hc
    · trivial

/-- A step that commits a file is the update of a call about to commit it. -/
theorem uploadStep_commits {a : UploadAction} (h : (uploadSystem config md5).step s a t)
    (hf : f ∈ s.tables.files.rows) (hup : f.state = .uploading) (hg : g ∈ t.tables.files.rows)
    (hclash : f.Clash g) (hcom : g.state = .committed) :
    ∃ i now peername, a = .exec i now ∧
      s.calls[i]? = some (.next (.commitFile f.jobid f.filename peername)) := by
  have hsame : g ∉ s.tables.files.rows := by
    intro hg
    rw [Table.eq_of_clash hf hg hclash, hcom] at hup
    cases hup
  obtain ⟨i, now, p, rfl, hi, rfl⟩ | ⟨request, outcome, -, hr, rfl⟩ | ⟨request, ret, -, rfl⟩ |
    ⟨i, ret, -, rfl⟩ := uploadStep_cases h
  · obtain hg | ⟨f', hf', peername, rfl, rfl⟩ | ⟨rfl, hno⟩ := mem_execStmt_files hg
    · exact absurd hg hsame
    · obtain ⟨hj, hn, -⟩ := commitRow_key f'.jobid f'.filename f'
      obtain rfl := Table.eq_of_clash hf hf' ⟨hclash.1.trans hj, hclash.2.trans hn⟩
      exact ⟨i, now, peername, rfl, hi⟩
    · exact absurd hclash (hno f hf)
  all_goals exact absurd hg hsame

/-- In a run without takeovers a file is committed only by the client its row
    records. -/
theorem commit_identity {a : UploadAction}
    (hs : (uploadSystem config md5).Reachable (NoTakeover md5) s)
    (h : (uploadSystem config md5).step s a t) (hf : f ∈ s.tables.files.rows)
    (hup : f.state = .uploading) (hg : g ∈ t.tables.files.rows) (hclash : f.Clash g)
    (hcom : g.state = .committed) : ∃ i now peername, a = .exec i now ∧
      s.calls[i]? = some (.next (.commitFile f.jobid f.filename peername)) ∧
      md5 peername = f.ulUserid := by
  have hchecked : Checked md5 s := by
    refine hs.invariant (fun s hs => ?_) fun s a t hs ha hst => hs.step ha hst
    obtain rfl : s = _ := hs
    intro f hf
    simp [Table.empty] at hf
  obtain ⟨i, now, peername, rfl, hi⟩ := uploadStep_commits h hf hup hg hclash hcom
  exact ⟨i, now, peername, rfl, hi,
    (hchecked f hf _ (List.mem_of_getElem? hi) rfl rfl).symm⟩

end Identity

/-! ## A takeover -/

theorem sampleMd5_slash (s : Bytes) : ch '/' ∉ sampleMd5 s := by
  unfold sampleMd5
  split_ifs <;> decide

/-- A file of the sample job that one of the clients uploads. -/
def sampleUpload (peername : Bytes) (deadline : Option ℤ) (state : FileState) : FileRow where
  jobid := ascii "abcdefghij"
  filename := ascii "dump"
  intPath := ascii "/jp/data/496dc9917875c0ef914af4751580f02d/0/abcdefghij/dump"
  extUrl := ascii "ftp://jp/data/496dc9917875c0ef914af4751580f02d/0/abcdefghij/dump"
  state := state
  deadline := deadline
  ulUserid := sampleMd5 peername

/-- The requests of the two clients. -/
def requestUpload (peername : Bytes) : UploadAction :=
  .call (.startUpload sampleJob.dgJobid (ascii "dump") none (some peername))

def requestCommit (peername : Bytes) : UploadAction :=
  .call (.commitUpload (sampleUpload [] none .uploading).extUrl (some peername))

/-- A job is registered, one client uploads a file of it, and the identity of
    its commit was checked. -/
def checkedCommit : List UploadAction :=
  [.call (.registerJob sampleJob.dgJobid (ascii "/CN=alice") 0), .exec 0 0, .exec 0 0,
    requestUpload (ascii "/CN=alice"), .exec 1 0, .exec 1 0, .exec 1 0, .exec 1 0,
    requestCommit (ascii "/CN=alice"), .exec 2 0]

/-- The other client uploads the file anew, after the first upload has expired. -/
def takeover : List UploadAction :=
  [requestUpload (ascii "/CN=bob"), .exec 3 400, .exec 3 400, .exec 3 400, .exec 3 400]

/-- A state in which a client is about to commit the upload of another. -/
def AboutToCommit (peername uploader : Bytes) (deadline : ℤ) (s : UploadState) : Prop :=
  s.tables.files.rows = [sampleUpload uploader (some deadline) .uploading] ∧
    s.calls[2]? = some (.next (.commitFile (ascii "abcdefghij") (ascii "dump") peername))

instance (peername uploader : Bytes) (deadline : ℤ) :
    DecidablePred (AboutToCommit peername uploader deadline) :=
  fun _ => inferInstanceAs (Decidable (_ ∧ _))

/-- The update of the commit is then executed. -/
theorem AboutToCommit.step {peername uploader : Bytes} {deadline : ℤ} {s : UploadState}
    (hs : AboutToCommit peername uploader deadline s) (now : ℤ) :
    ∃ t, (uploadSystem sampleConfig sampleMd5).step s (.exec 2 now) t ∧
      sampleUpload uploader none .committed ∈ t.tables.files.rows := by
  obtain ⟨hrows, hcall⟩ := hs
  have hst : uploadStep sampleConfig sampleMd5 s (.exec 2 now) =
      some ⟨{ s.tables with files := commitRows s.tables.files (ascii "abcdefghij") (ascii "dump") },
        s.calls.set 2 (.done none)⟩ := by
    simp only [uploadStep, hcall]
    rfl
  refine ⟨_, hst, ?_⟩
  refine mem_commitRows.2 ⟨_, hrows ▸ List.mem_singleton_self _, ?_⟩
  rw [commitRow, if_pos ⟨rfl, rfl⟩]
  rfl

theorem checkedCommit_run : (checkedCommit.foldlM (fun s a =>
    if NoTakeover sampleMd5 s a then uploadStep sampleConfig sampleMd5 s a else none)
    ⟨⟨.empty, .empty, .empty⟩, []⟩).any
      (AboutToCommit (ascii "/CN=alice") (ascii "/CN=alice") 300 ·) = true := by
  decide +kernel

theorem takeover_run : ((checkedCommit ++ takeover).foldlM (fun s a =>
    if System.Always s a then uploadStep sampleConfig sampleMd5 s a else none)
    ⟨⟨.empty, .empty, .empty⟩, []⟩).any
      (AboutToCommit (ascii "/CN=alice") (ascii "/CN=bob") 700 ·) = true := by
  decide +kernel

/-- The first client commits its own upload. -/
theorem commit_identity_sample : ∃ s, AboutToCommit (ascii "/CN=alice") (ascii "/CN=alice") 300 s ∧
    ∃ i now peername, UploadAction.exec 2 10 = .exec i now ∧
      s.calls[i]? = some (.next (.commitFile (ascii "abcdefghij") (ascii "dump") peername)) ∧
      sampleMd5 peername = sampleMd5 (ascii "/CN=alice") := by
  obtain ⟨s, hrun, hs⟩ := Option.any_eq_true _ _ |>.1 checkedCommit_run
  have hs : AboutToCommit (ascii "/CN=alice") (ascii "/CN=alice") 300 s := of_decide_eq_true hs
  obtain ⟨t, hst, ht⟩ := hs.step 10
  refine ⟨s, hs, commit_identity ⟨_, rfl, .of_foldlM (fun _ _ _ h => h) hrun⟩ hst
    (f := sampleUpload (ascii "/CN=alice") (some 300) .uploading)
    (hs.1 ▸ List.mem_singleton_self _) rfl ht ⟨rfl, rfl⟩ rfl⟩

/-- After a takeover the first client commits the upload of the second. -/
theorem commit_takeover : ∃ s t, (uploadSystem sampleConfig sampleMd5).Reachable System.Always s ∧
    (uploadSystem sampleConfig sampleMd5).step s (.exec 2 500) t ∧
    sampleUpload (ascii "/CN=bob") (some 700) .uploading ∈ s.tables.files.rows ∧
    sampleUpload (ascii "/CN=bob") none .committed ∈ t.tables.files.rows ∧
    ¬∃ i now peername, UploadAction.exec 2 500 = .exec i now ∧
      s.calls[i]? = some (.next (.commitFile (ascii "abcdefghij") (ascii "dump") peername)) ∧
      sampleMd5 peername = sampleMd5 (ascii "/CN=bob") := by
  obtain ⟨s, hrun, hs⟩ := Option.any_eq_true _ _ |>.1 takeover_run
  have hs : AboutToCommit (ascii "/CN=alice") (ascii "/CN=bob") 700 s := of_decide_eq_true hs
  obtain ⟨t, hst, ht⟩ := hs.step 500
  refine ⟨s, t, ⟨_, rfl, .of_foldlM (fun _ _ _ h => h) hrun⟩, hst,
    hs.1 ▸ List.mem_singleton_self _, ht, ?_⟩
  rintro ⟨i, now, peername, ⟨⟩, hcall, hmd5⟩
  rw [hs.2] at hcall
  obtain rfl : ascii "/CN=alice" = peername := by simpa using hcall
  exact absurd hmd5 (by decide)

/-- The first client commits its upload. -/
def ownCommit : List UploadAction := checkedCommit ++ [.exec 2 10]

/-- The file is committed, and the other client's upload of it is refused then. -/
theorem ownCommit_run : (ownCommit.foldlM (fun s a =>
    if System.Always s a then uploadStep sampleConfig sampleMd5 s a else none)
    ⟨⟨.empty, .empty, .empty⟩, []⟩).any (fun s : UploadState =>
      sampleUpload (ascii "/CN=alice") none .committed ∈ s.tables.files.rows ∧
      (takeover.foldlM (fun s a =>
        if System.Always s a then uploadStep sampleConfig sampleMd5 s a else none) s).any
          fun t : UploadState => t.calls[3]? = some (.done (some .EEXIST))) = true := by
  decide +kernel

/-- The file the first client has committed stays, and the upload of the other one is
    refused. -/
theorem committed_forever_sample : ∃ s t,
    (uploadSystem sampleConfig sampleMd5).Reachable System.Always s ∧
    sampleUpload (ascii "/CN=alice") none .committed ∈ s.tables.files.rows ∧
    (uploadSystem sampleConfig sampleMd5).Steps System.Always s t ∧
    t.calls[3]? = some (.done (some .EEXIST)) ∧
    sampleUpload (ascii "/CN=alice") none .committed ∈ t.tables.files.rows ∧
      ∀ object client, objectPath object = some (sampleUpload [] none .committed).intPath →
        authzWrite t.tables object client ≠ .ok () := by
  obtain ⟨s, hrun, hs⟩ := Option.any_eq_true _ _ |>.1 ownCommit_run
  obtain ⟨hmem, hlater⟩ := of_decide_eq_true hs
  obtain ⟨t, hrun', ht⟩ := Option.any_eq_true _ _ |>.1 hlater
  have hreach : (uploadSystem sampleConfig sampleMd5).Reachable System.Always s :=
    ⟨_, rfl, .of_foldlM (fun _ _ _ h => h) hrun⟩
  have hst : (uploadSystem sampleConfig sampleMd5).Steps System.Always s t :=
    .of_foldlM (fun _ _ _ h => h) hrun'
  exact ⟨s, t, hreach, hmem, hst, of_decide_eq_true ht,
    committed_forever sampleMd5_slash hreach hmem rfl hst⟩

end JobProvenance
