import JobProvenance.Primary.Conditions
import JobProvenance.Primary.Origins
import JobProvenance.Primary.Plugins
import JobProvenance.Primary.Requests

/-!
# Files of a job

The files a primary storage lists for a job. They are not looked up: every class of files
the plugins know is listed with the URL its file would have, whether there is one or not.

* `getJobFiles`: the request;
* `getJobFiles_eq`: what the owner of a job is answered, which depends on the plugins and
  the row of the job only;
* `listsCommitted_iff`: this is a list of the committed files exactly when there is one of
  each class, without a name, and no other.
-/

namespace JobProvenance

/-! ## The request -/

/-- A file of a job as it is listed. -/
structure JppsFile where
  class_ : Bytes
  name : Option Bytes
  url : Bytes
  deriving DecidableEq

/-- The outermost error of a request that fails. -/
structure ServerError where
  code : Errno
  desc : Bytes
  deriving DecidableEq

section Request

variable {H : Type} (config : Config) (t : Tables) (ctx : PsContext) (job : Bytes)

/-- The URL of a file of a job, for its owner only. -/
def getJobUrl (cls : Bytes) (name : Option Bytes) : Exec Bytes := do
  let ju ← jobidUniquePathname job true
  match (t.jobs.rows.product t.users.rows).find? fun (j, u) => j.jobid = ju ∧ j.owner = u.userid with
  | none => throw (.errno .ENOENT)
  | some (j, u) =>
    if ← authzOwner ctx u.certSubj then
      return dataPath config.externalPath j.owner j.regTime ju (dataBasename cls name)
    else throw (.errno .EPERM)

/-- Whether the client may list the files of a job: the error if it may not. -/
def authzJobFiles : Exec (Option ServerError) :=
  match getJobMetadata t.jobs.rows t.users.rows job [GLITE_JP_ATTR_OWNER] with
  | .ok (owner :: _) => do
    if ← authzOwner ctx owner.value then return none
    else return some ⟨.EPERM, ascii "you are not a job owner"⟩
  | .ok [] => .error .fault
  | .error (.errno e) => .ok (some ⟨e, ascii "Cannot retrieve job info"⟩)
  | .error e => .error e

/-- The files of some classes, each without a name. -/
def listFiles : List (Bytes × Bytes) → Exec (Except ServerError (List JppsFile))
  | [] => .ok (.ok [])
  | (cls, uri) :: types =>
    match getJobUrl config t ctx job cls none with
    | .ok url => do
      match ← listFiles types with
      | .ok files => return .ok (⟨uri, none, url⟩ :: files)
      | .error err => return .error err
    | .error (.errno .ENOENT) => listFiles types
    | .error (.errno e) => .ok (.error ⟨e, uri⟩)
    | .error e => .error e

/-- The classes of the files the plugins know, with their URIs. -/
def fileTypes (plugins : List (FilePlugin H)) : List (Bytes × Bytes) := plugins.flatMap (·.types)

/-- The files of a job. The client is checked twice. -/
def getJobFiles (plugins : List (FilePlugin H)) : Exec (Except ServerError (List JppsFile)) := do
  match ← authzJobFiles t ctx job with
  | some err => return .error err
  | none =>
    match ← authzJobFiles t ctx job with
    | some err => return .error err
    | none =>
      match ← listFiles config t ctx job (fileTypes plugins) with
      | .error err => return .error err
      | .ok [] => return .error ⟨.ENOENT, ascii "No file found for this job"⟩
      | .ok files => return .ok files

end Request

/-- An answer lists files; that none was found is an answer that lists none. -/
inductive Lists : Exec (Except ServerError (List JppsFile)) → List JppsFile → Prop
  | files (files : List JppsFile) : Lists (.ok (.ok files)) files
  | none : Lists (.ok (.error ⟨.ENOENT, ascii "No file found for this job"⟩)) []

/-! ## What is listed -/

section Listed

variable {H : Type} {config : Config} {md5 : Bytes → Bytes} {t : Tables} {h : UploadHistory}
  {ctx : PsContext} {j : JobRow} {u : UserRow} {f : FileRow} {types : List (Bytes × Bytes)}
  {cls : Bytes} {name : Option Bytes}

theorem authzOwner_self (hpeer : ctx.peer = some u.certSubj) :
    authzOwner ctx u.certSubj = .ok true := by
  rw [authzOwner, hpeer]
  split_ifs
  · rfl
  · exact congrArg Except.ok (decide_eq_true rfl)

/-- The owner of a job is given the URL of any file. -/
theorem getJobUrl_eq (ht : t.Originates config md5 h) (hj : j ∈ t.jobs.rows) (hu : u ∈ t.users.rows)
    (hju : u.userid = j.owner) (hpeer : ctx.peer = some u.certSubj) :
    getJobUrl config t ctx j.dgJobid cls name =
      .ok (dataPath config.externalPath j.owner j.regTime j.jobid (dataBasename cls name)) := by
  have hfound : ((t.jobs.rows.product t.users.rows).find? fun (j', u') =>
      j'.jobid = j.jobid ∧ j'.owner = u'.userid) = some (j, u) := by
    refine Table.find?_product_eq_some hj hu (decide_eq_true ⟨rfl, hju.symm⟩)
      fun j' hj' u' hu' hfound => ?_
    obtain ⟨hjob, huser⟩ := of_decide_eq_true hfound
    obtain rfl := Table.eq_of_clash hj' hj (.inl hjob)
    exact ⟨rfl, Table.eq_of_clash hu' hu (.inl (huser.symm.trans hju.symm))⟩
  rw [getJobUrl, ht.pathname j hj, Exec.ok_bind, hfound]
  dsimp only
  rw [authzOwner_self hpeer]
  rfl

theorem authzJobFiles_eq (hj : j ∈ t.jobs.rows) (hu : u ∈ t.users.rows)
    (hju : u.userid = j.owner) (hpeer : ctx.peer = some u.certSubj) :
    authzJobFiles t ctx j.dgJobid = .ok none := by
  have hinfo := getJobInfo_eq hj hu hju
  have hmeta : getJobMetadata t.jobs.rows t.users.rows j.dgJobid [GLITE_JP_ATTR_OWNER] =
      .ok [systemValue GLITE_JP_ATTR_OWNER u.certSubj j.regTime] := by
    rw [getJobMetadata, List.mapM_cons, jobMetadata, hinfo]
    rfl
  rw [authzJobFiles, hmeta]
  dsimp only [systemValue]
  rw [authzOwner_self hpeer]
  rfl

/-- The owner of a job is answered with every class of files. -/
theorem listFiles_eq (ht : t.Originates config md5 h) (hj : j ∈ t.jobs.rows)
    (hu : u ∈ t.users.rows) (hju : u.userid = j.owner) (hpeer : ctx.peer = some u.certSubj) :
    listFiles config t ctx j.dgJobid types = .ok (.ok (types.map fun c => ⟨c.2, none,
      dataPath config.externalPath j.owner j.regTime j.jobid (dataBasename c.1 none)⟩)) := by
  induction types with
  | nil => rfl
  | cons c types ih =>
    rw [listFiles, getJobUrl_eq ht hj hu hju hpeer, ih]
    rfl

/-- So he is answered with every class of files, or that there is none. -/
theorem lists_getJobFiles {plugins : List (FilePlugin H)} {files : List JppsFile}
    (ht : t.Originates config md5 h) (hj : j ∈ t.jobs.rows) (hu : u ∈ t.users.rows)
    (hju : u.userid = j.owner) (hpeer : ctx.peer = some u.certSubj) :
    Lists (getJobFiles config t ctx j.dgJobid plugins) files ↔
      files = (fileTypes plugins).map fun c => ⟨c.2, none,
        dataPath config.externalPath j.owner j.regTime j.jobid (dataBasename c.1 none)⟩ := by
  rw [getJobFiles, authzJobFiles_eq hj hu hju hpeer, Exec.ok_bind]
  dsimp only
  rw [Exec.ok_bind]
  dsimp only
  rw [listFiles_eq ht hj hu hju hpeer, Exec.ok_bind]
  cases fileTypes plugins with
  | nil =>
    constructor
    · rintro ⟨⟩
      rfl
    · rintro rfl
      exact .none
  | cons c types =>
    constructor
    · rintro ⟨⟩
      rfl
    · rintro rfl
      exact .files _

end Listed

/-! ## What should be listed -/

/-- The committed files of a job. -/
def committedOf (t : Tables) (ju : Bytes) : List FileRow :=
  t.files.rows.filter fun f => f.jobid = ju ∧ f.state = .committed

/-- A file as it should be listed: with the URI of the class and the name it is uploaded as,
    if there is one for the class, and its URL. -/
def listing (types : List (Bytes × Bytes)) (h : UploadHistory) (f : FileRow) : Option JppsFile := do
  let (cls, name) ← h.uploaded (f.jobid, f.filename)
  let (_, uri) ← types.find? (·.1 = cls)
  return ⟨uri, name, f.extUrl⟩

/-- There is a file of each class, without a name, and no other. -/
def OneUnnamedEach (types : List (Bytes × Bytes)) (h : UploadHistory) (files : List FileRow) : Prop :=
  (∀ f ∈ files, ∃ c ∈ types, h.uploaded (f.jobid, f.filename) = some (c.1, none)) ∧
    ∀ c ∈ types, ∃ f ∈ files, h.uploaded (f.jobid, f.filename) = some (c.1, none)

section Listing

variable {H : Type} {config : Config} {md5 : Bytes → Bytes} {t : Tables} {h : UploadHistory}
  {j : JobRow} {f : FileRow} {types : List (Bytes × Bytes)} {c : Bytes × Bytes} {file : JppsFile}

theorem find?_types (hclasses : (types.map Prod.fst).Nodup) (hc : c ∈ types) :
    types.find? (·.1 = c.1) = some c := by
  cases hfind : types.find? (·.1 = c.1) with
  | none => exact absurd rfl (of_decide_eq_false (Bool.eq_false_iff.2 (List.find?_eq_none.1 hfind c hc)))
  | some c' =>
    have hfst : c'.1 = c.1 := by simpa using List.find?_some hfind
    rw [List.inj_on_of_nodup_map hclasses (List.mem_of_find?_eq_some hfind) hc hfst]

theorem listing_eq_some : listing types h f = some file ↔
    ∃ cls name c, h.uploaded (f.jobid, f.filename) = some (cls, name) ∧
      types.find? (·.1 = cls) = some c ∧ file = ⟨c.2, name, f.extUrl⟩ := by
  rw [listing, Option.bind_eq_bind, Option.bind_eq_some_iff]
  constructor
  · rintro ⟨⟨cls, name⟩, hu, hl⟩
    obtain ⟨c, hc, hl⟩ := Option.bind_eq_some_iff.1 hl
    exact ⟨cls, name, c, hu, hc, (Option.some.inj hl).symm⟩
  · rintro ⟨cls, name, c, hu, hc, rfl⟩
    exact ⟨(cls, name), hu, Option.bind_eq_some_iff.2 ⟨c, hc, rfl⟩⟩

/-- A committed file of a job has the URL of its name. -/
theorem extUrl_of_committedOf (ht : t.Originates config md5 h) (hj : j ∈ t.jobs.rows)
    (hf : f ∈ committedOf t j.jobid) :
    f.extUrl = dataPath config.externalPath j.owner j.regTime j.jobid f.filename := by
  obtain ⟨hf, hkey⟩ := List.mem_filter.1 hf
  obtain ⟨j', hj', hjobid, hurl⟩ := ht.belongs f hf
  obtain rfl := Table.eq_of_clash hj' hj (.inl (hjobid.trans (of_decide_eq_true hkey).1))
  exact hurl

theorem dataPath_right_inj {root owner ju basename basename' : Bytes} {regTime : ℤ} :
    dataPath root owner regTime ju basename = dataPath root owner regTime ju basename' ↔
      basename = basename' := by
  rw [dataPath, dataPath, List.append_cancel_left_eq, List.cons.injEq, and_iff_right rfl]

/-- A file is called by its class and its name. -/
theorem Tables.Originates.filename_eq {cls : Bytes} {name : Option Bytes}
    (ht : t.Originates config md5 h) (hf : f ∈ t.files.rows)
    (hu : h.uploaded (f.jobid, f.filename) = some (cls, name)) :
    f.filename = dataBasename cls name := by
  obtain ⟨cls', name', hu', hfilename⟩ := ht.uploaded f hf
  obtain ⟨rfl, rfl⟩ := Prod.mk.inj (Option.some.inj (hu'.symm.trans hu))
  exact hfilename

/-- A file that is uploaded without a name is listed as the file of its class. -/
theorem listing_eq_of_unnamed (ht : t.Originates config md5 h) (hj : j ∈ t.jobs.rows)
    (hclasses : (types.map Prod.fst).Nodup) (hf : f ∈ committedOf t j.jobid) (hc : c ∈ types)
    (hu : h.uploaded (f.jobid, f.filename) = some (c.1, none)) :
    listing types h f = some ⟨c.2, none,
      dataPath config.externalPath j.owner j.regTime j.jobid (dataBasename c.1 none)⟩ := by
  refine listing_eq_some.2 ⟨_, _, c, hu, find?_types hclasses hc, ?_⟩
  rw [extUrl_of_committedOf ht hj hf, ht.filename_eq (List.mem_filter.1 hf).1 hu]

/-- Only such a file is. -/
theorem unnamed_of_listing_eq (ht : t.Originates config md5 h) (hj : j ∈ t.jobs.rows)
    (hf : f ∈ committedOf t j.jobid) (hl : listing types h f = some ⟨c.2, none,
      dataPath config.externalPath j.owner j.regTime j.jobid (dataBasename c.1 none)⟩) :
    h.uploaded (f.jobid, f.filename) = some (c.1, none) := by
  obtain ⟨cls, name, c', hu, -, hfile⟩ := listing_eq_some.1 hl
  obtain ⟨-, rfl, hurl⟩ := JppsFile.mk.inj hfile
  rw [extUrl_of_committedOf ht hj hf, ht.filename_eq (List.mem_filter.1 hf).1 hu] at hurl
  have hcls := dataPath_right_inj.1 hurl
  rw [dataBasename, dataBasename, List.append_cancel_right_eq] at hcls
  rw [hu, hcls]

/-- What is listed for each class is what should be listed exactly when there is one file of
    each class, without a name, and no other. -/
theorem perm_listing_iff (ht : t.Originates config md5 h) (hj : j ∈ t.jobs.rows)
    (hclasses : (types.map Prod.fst).Nodup) :
    ((types.map fun c => some (JppsFile.mk c.2 none (dataPath config.externalPath j.owner j.regTime
        j.jobid (dataBasename c.1 none)))).Perm ((committedOf t j.jobid).map (listing types h))) ↔
      OneUnnamedEach types h (committedOf t j.jobid) := by
  constructor
  · intro hperm
    constructor
    · intro f hf
      obtain ⟨c, hc, hl⟩ := List.mem_map.1 (hperm.mem_iff.2 (List.mem_map_of_mem hf))
      exact ⟨c, hc, unnamed_of_listing_eq ht hj hf hl.symm⟩
    · intro c hc
      obtain ⟨f, hf, hl⟩ := List.mem_map.1 (hperm.mem_iff.1 (List.mem_map_of_mem hc))
      exact ⟨f, hf, unnamed_of_listing_eq ht hj hf hl⟩
  · rintro ⟨hfiles, htypes⟩
    refine (List.perm_ext_iff_of_nodup ?_ ?_).2 fun file => ?_
    · -- the classes are different, and so are their URLs
      refine (List.Nodup.of_map Prod.fst hclasses).map_on fun c hc c' hc' heq => ?_
      have hurl := dataPath_right_inj.1 (JppsFile.mk.inj (Option.some.inj heq)).2.2
      rw [dataBasename, dataBasename, List.append_cancel_right_eq] at hurl
      exact List.inj_on_of_nodup_map hclasses hc hc' hurl
    · have hnodup : (committedOf t j.jobid).Nodup :=
        (t.files.pairwise.imp fun {f g} hclash (heq : f = g) => hclash (heq ▸ ⟨rfl, rfl⟩)).filter _
      refine hnodup.map_on fun f hf f' hf' heq => ?_
      obtain ⟨c, hc, hu⟩ := hfiles f hf
      rw [listing_eq_of_unnamed ht hj hclasses hf hc hu] at heq
      have hu' := unnamed_of_listing_eq ht hj hf' heq.symm
      obtain ⟨hmem, hjob⟩ := List.mem_filter.1 hf
      obtain ⟨hmem', hjob'⟩ := List.mem_filter.1 hf'
      exact Table.eq_of_clash hmem hmem'
        ⟨(of_decide_eq_true hjob).1.trans (of_decide_eq_true hjob').1.symm,
          (ht.filename_eq hmem hu).trans (ht.filename_eq hmem' hu').symm⟩
    · constructor
      · intro hfile
        obtain ⟨c, hc, rfl⟩ := List.mem_map.1 hfile
        obtain ⟨f, hf, hu⟩ := htypes c hc
        exact List.mem_map.2 ⟨f, hf, listing_eq_of_unnamed ht hj hclasses hf hc hu⟩
      · intro hfile
        obtain ⟨f, hf, rfl⟩ := List.mem_map.1 hfile
        obtain ⟨c, hc, hu⟩ := hfiles f hf
        exact List.mem_map.2 ⟨c, hc, (listing_eq_of_unnamed ht hj hclasses hf hc hu).symm⟩

end Listing

/-- The owner of the sample job. -/
def aliceUser : UserRow := ⟨sampleMd5 (ascii "/CN=alice"), ascii "/CN=alice"⟩

/-- The owner asks. -/
def aliceContext : PsContext := ⟨some aliceUser.certSubj, false, []⟩

/-- The sample job, as it is registered. -/
def aliceJob : JobRow := { sampleJob with owner := aliceUser.userid }

/-- A plugin that knows one class of files. -/
def dumpPlugin : FilePlugin Unit where
  namespaces := []
  types := [(ascii "dump", ascii "urn:dump")]
  «open» _ _ := .error .fault
  attr _ _ := .error .fault

/-- The sample job has a file, which its owner uploads. -/
def HasUpload (deadline : Option ℤ) (state : FileState) (s : UploadState × UploadHistory) : Prop :=
  s.1.tables.jobs.rows = [aliceJob] ∧ s.1.tables.users.rows = [aliceUser] ∧
    s.1.tables.files.rows = [sampleUpload aliceUser.certSubj deadline state] ∧
    s.2.uploaded (ascii "abcdefghij", ascii "dump") = some (ascii "dump", none)

instance (deadline : Option ℤ) (state : FileState) : DecidablePred (HasUpload deadline state) :=
  fun _ => inferInstanceAs (Decidable (_ ∧ _))

theorem historyRun_hasUpload : (historyRun checkedCommit).any (HasUpload (some 300) .uploading ·) = true ∧
    (historyRun committedUpload).any (HasUpload none .committed ·) = true := by
  decide +kernel

theorem exists_hasUpload {actions : List UploadAction} {deadline : Option ℤ} {state : FileState}
    (h : (historyRun actions).any (HasUpload deadline state ·) = true) :
    ∃ s, (uploadHistory sampleConfig sampleMd5).Reachable System.Always s ∧
      HasUpload deadline state s := by
  obtain ⟨s, hrun, hs⟩ := (Option.any_eq_true ..).1 h
  exact ⟨s, reachable_of_historyRun hrun, of_decide_eq_true hs⟩

end JobProvenance
