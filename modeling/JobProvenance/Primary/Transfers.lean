import JobProvenance.Primary.Origins

/-!
# Transfers to the storage

The files are written by a server of its own, which asks the callouts before each
operation and is not asked again while the transfer goes on, nor does the storage know
about it when the upload is committed.

* `authorizeAsync`: the decision about an operation;
* `ftpSystem`: the calls of clients of the storage, and the transfers, in any order;
* `asked_of_reachable`: whatever is written to a file was sent by a client with the hash of
  one that has asked to upload this file;
* `written_of_committed`: once a file is committed and no transfer to it is going on, what
  was written to it stays as it is.
-/

namespace JobProvenance

/-! ## The callouts -/

/-- The security context of a session, with the name of the client, if it can be told. -/
structure GssContext where
  name : Option Bytes
  deriving DecidableEq

/-- The handle of a session. -/
structure AuthzHandle where
  gssCtx : Option GssContext
  deriving DecidableEq

/-- What the server asks: whether the client of a session may do something with an
    object. -/
structure AuthzRequest where
  handle : Option AuthzHandle
  action : Option Bytes
  object : Option Bytes
  deriving DecidableEq

/-- What an argument is needed for. -/
def required {α : Type} (text : String) : Option α → Except Bytes α
  | some a => .ok a
  | none => .error (ascii text)

/-- Nobody may delete a file. -/
def authzDel (_object _client : Bytes) : Except Bytes Unit :=
  .error (ascii "Deleting files not supported")

/-- The decision; `state` is the database, if the callouts have connected to it. -/
def authorizeAsync (state : Option Tables) (r : AuthzRequest) : Except Bytes Unit := do
  let action ← required "null action" r.action
  let object ← required "null object" r.object
  let handle ← required "null handle" r.handle
  let gssCtx ← required "bad handle" handle.gssCtx
  let tables ← required ("system state not initialized, " ++
    "probably the GLOBUS_GSI_AUTHZ_SYSTEM_INIT callout isn't handled") state
  let client ← required "cannot identify client" gssCtx.name
  if action = ascii "create" then authzWrite tables object client
  else if action = ascii "write" then authzWrite tables object client
  else if action = ascii "read" then authzRead tables object client
  else if action = ascii "delete" then authzDel object client
  else .error (ascii "unsupported operation")

/-! ## Transfers -/

/-- A client that may write a file until the transfer is over. -/
structure Transfer where
  client : Bytes
  path : Bytes
  deriving DecidableEq

/-- The transfer that an operation begins, if it writes. -/
def AuthzRequest.transfer (r : AuthzRequest) : Option Transfer := do
  let action ← r.action
  if action = ascii "create" ∨ action = ascii "write" then
    let handle ← r.handle
    let gssCtx ← handle.gssCtx
    let client ← gssCtx.name
    let path ← r.object >>= objectPath
    return ⟨client, path⟩
  else none

/-- What a client does to a file: it is opened, or a block is written. -/
inductive FileWrite
  | opened
  | block (offset : ℕ) (data : Bytes)
  deriving DecidableEq

/-- The storage with what it was asked for, the transfers in the order in which they began,
    and what was done to each file, by whom, in order. -/
structure FtpState where
  storage : UploadState
  asked : List Request
  transfers : List (Option Transfer)
  written : Bytes → List (Bytes × FileWrite)

/-- A step of the storage, or of a transfer; the callouts may have no database. -/
inductive FtpAction
  | storage (a : UploadAction)
  | authorize (r : AuthzRequest) (connected : Bool)
  | write (i offset : ℕ) (data : Bytes)
  | close (i : ℕ)

/-- A request of the storage is recorded. -/
def UploadAction.asks : UploadAction → List Request
  | .call request => [request]
  | _ => []

/-- Something is done to a file. -/
def FtpState.writes (s : FtpState) (t : Transfer) (w : FileWrite) : FtpState :=
  { s with written := Function.update s.written t.path (s.written t.path ++ [(t.client, w)]) }

variable (config : Config) (md5 : Bytes → Bytes)

/-- The step of an action, if it can be taken. -/
def ftpStep (s : FtpState) : FtpAction → Option FtpState
  | .storage a => (uploadStep config md5 s.storage a).map fun storage =>
    { s with storage, asked := s.asked ++ a.asks }
  | .authorize r connected =>
    match authorizeAsync (if connected then some s.storage.tables else none) r with
    | .error _ => some s
    | .ok () => match r.transfer with
      | some t => some ({ s with transfers := s.transfers ++ [some t] }.writes t .opened)
      -- what is read changes nothing
      | none => some s
  | .write i offset data => match s.transfers[i]? with
    | some (some t) => some (s.writes t (.block offset data))
    | _ => none
  | .close i => some { s with transfers := s.transfers.set i none }

/-- An empty storage, and no transfers. -/
def ftpSystem : System FtpState FtpAction where
  init s := (uploadSystem config md5).init s.storage ∧ s.asked = [] ∧ s.transfers = [] ∧
    ∀ path, s.written path = []
  step s a t := ftpStep config md5 s a = some t

/-! ## Who has asked for an upload -/

section Asked

variable (md5 : Bytes → Bytes)

/-- A file whose upload was asked for, by the client that is recorded for it. -/
def FileRow.AskedIn (asked : List Request) (f : FileRow) : Prop :=
  ∃ job cls name peer, .startUpload job cls name peer ∈ asked ∧
    jobidUniquePathname job true = .ok f.jobid ∧ f.filename = dataBasename cls name ∧
    f.ulUserid = md5 (peerName peer)

/-- A call in progress will insert what was asked for. -/
def Proc.AskedIn (asked : List Request) : Proc → Prop
  | .selectJob ju cls name peername => ∃ job peer, .startUpload job cls name peer ∈ asked ∧
      jobidUniquePathname job true = .ok ju ∧ peername = peerName peer
  | .storePeer row _ | .deleteExpired row | .insertFile row => row.AskedIn md5 asked
  | .storeOwner .. | .insertJob _ | .selectUpload .. | .commitFile .. => True

structure UploadState.AskedIn (asked : List Request) (s : UploadState) : Prop where
  files : ∀ f ∈ s.tables.files.rows, f.AskedIn md5 asked
  calls : ∀ p, .next p ∈ s.calls → p.AskedIn md5 asked

/-- A client with the hash of one that has asked to upload the file of a path. -/
def AskedFor (config : Config) (asked : List Request) (path client : Bytes) : Prop :=
  ∃ job cls name peer ju owner regTime, .startUpload job cls name peer ∈ asked ∧
    jobidUniquePathname job true = .ok ju ∧ md5 (peerName peer) = md5 client ∧
    path = dataPath config.internalPath owner regTime ju (dataBasename cls name)

variable {md5} {config : Config} {asked asked' : List Request} {f : FileRow} {p : Proc}

theorem FileRow.AskedIn.mono (h : f.AskedIn md5 asked) (ha : asked ⊆ asked') :
    f.AskedIn md5 asked' := by
  obtain ⟨job, cls, name, peer, hask, h⟩ := h
  exact ⟨job, cls, name, peer, ha hask, h⟩

theorem Proc.AskedIn.mono (h : p.AskedIn md5 asked) (ha : asked ⊆ asked') :
    p.AskedIn md5 asked' := by
  cases p with
  | selectJob ju cls name peername =>
    obtain ⟨job, peer, hask, h⟩ := h
    exact ⟨job, peer, ha hask, h⟩
  | storePeer row peername | deleteExpired row | insertFile row => exact FileRow.AskedIn.mono h ha
  | storeOwner row owner | insertJob row | selectUpload destination peername
  | commitFile jobid filename peername => trivial

theorem AskedFor.mono {path client : Bytes} (h : AskedFor md5 config asked path client)
    (ha : asked ⊆ asked') : AskedFor md5 config asked' path client := by
  obtain ⟨job, cls, name, peer, ju, owner, regTime, hask, h⟩ := h
  exact ⟨job, cls, name, peer, ju, owner, regTime, ha hask, h⟩

/-- What a statement inserts was asked for, and what the call does next. -/
theorem execStmt_askedIn {t : Tables} (now : ℤ) (hfiles : ∀ f ∈ t.files.rows, f.AskedIn md5 asked)
    (hp : p.AskedIn md5 asked) :
    (∀ f ∈ (execStmt config md5 now t p).1.files.rows, f.AskedIn md5 asked) ∧
      ∀ p', (execStmt config md5 now t p).2 = .next p' → p'.AskedIn md5 asked := by
  refine ⟨fun g hg => ?_, fun p' hnext => ?_⟩
  · obtain hg | ⟨f, hf, peername, -, rfl⟩ | ⟨rfl, -⟩ := mem_execStmt_files hg
    · exact hfiles g hg
    · rw [commitRow, if_pos ⟨rfl, rfl⟩]
      exact hfiles f hf
    · exact hp
  · cases p with
    | storeOwner row owner =>
      cases hnext
      trivial
    | storePeer row peername | deleteExpired row =>
      cases hnext
      exact hp
    | insertJob row | insertFile row =>
      simp only [execStmt] at hnext
      split at hnext <;> cases hnext
    | selectJob ju cls name peername =>
      simp only [execStmt] at hnext
      split at hnext
      · cases hnext
      · cases hnext
        obtain ⟨job, peer, hask, hju, rfl⟩ := hp
        exact ⟨job, cls, name, peer, hask, hju, rfl, rfl⟩
    | selectUpload destination peername =>
      simp only [execStmt] at hnext
      split at hnext
      · cases hnext
      · split_ifs at hnext
        cases hnext
        trivial
    | commitFile jobid filename peername => cases hnext

/-- A call that starts was asked for. -/
theorem call_askedIn {request : Request} {outcome : Outcome}
    (h : request.call md5 = .ok outcome) :
    ∀ p, outcome = .next p → p.AskedIn md5 [request] := by
  rintro p rfl
  cases request with
  | registerJob job owner regTime =>
    obtain ⟨ju, -, h⟩ := Exec.bind_eq_ok.1 h
    cases h
    trivial
  | startUpload job cls name peer =>
    obtain ⟨ju, hju, h⟩ := Exec.bind_eq_ok.1 h
    cases h
    exact ⟨job, peer, List.mem_singleton_self _, hju, rfl⟩
  | commitUpload destination peer =>
    cases h
    trivial

/-- A step of the storage: all it has was asked for. -/
theorem UploadState.AskedIn.step {s t : UploadState} {a : UploadAction}
    (hs : s.AskedIn md5 asked) (h : uploadStep config md5 s a = some t) :
    t.AskedIn md5 (asked ++ a.asks) := by
  have hold : ∀ p, .next p ∈ s.calls → p.AskedIn md5 (asked ++ a.asks) := fun p hp =>
    (hs.calls p hp).mono (List.subset_append_left _ _)
  have hset : ∀ {i outcome}, (∀ p, outcome = .next p → p.AskedIn md5 (asked ++ a.asks)) →
      ∀ p, .next p ∈ s.calls.set i outcome → p.AskedIn md5 (asked ++ a.asks) := by
    intro i outcome ho p hp
    rcases List.mem_or_eq_of_mem_set hp with hp | hp
    · exact hold p hp
    · exact ho p hp.symm
  obtain ⟨i, now, p, rfl, hi, rfl⟩ | ⟨request, outcome, rfl, hr, rfl⟩ | ⟨request, ret, rfl, rfl⟩ |
    ⟨i, ret, rfl, rfl⟩ := uploadStep_cases h
  · obtain ⟨hfiles, hnext⟩ := @execStmt_askedIn md5 config asked p s.tables now hs.files
      (hs.calls p (List.mem_of_getElem? hi))
    have hasks : (UploadAction.exec i now).asks = [] := rfl
    rw [hasks, List.append_nil] at hset ⊢
    exact ⟨hfiles, hset hnext⟩
  · refine ⟨fun f hf => (hs.files f hf).mono (List.subset_append_left _ _), fun p hp => ?_⟩
    rcases List.mem_append.1 hp with hp | hp
    · exact hold p hp
    · exact (call_askedIn hr p (List.mem_singleton.1 hp).symm).mono (List.subset_append_right _ _)
  · refine ⟨fun f hf => (hs.files f hf).mono (List.subset_append_left _ _), fun p hp => ?_⟩
    rcases List.mem_append.1 hp with hp | hp
    · exact hold p hp
    · cases List.mem_singleton.1 hp
  · have hasks : (UploadAction.fail i).asks = [] := rfl
    rw [hasks, List.append_nil] at hset ⊢
    exact ⟨hs.files, hset (by rintro _ ⟨⟩)⟩

end Asked

/-! ## What is written -/

section Written

variable {config : Config} {md5 : Bytes → Bytes} {s t : FtpState} {a : FtpAction}
  {tr : Transfer} {path : Bytes} {f : FileRow}

theorem authzWrite_eq_ok {tables : Tables} {object client : Bytes}
    (h : authzWrite tables object client = .ok ()) : ∃ f ∈ tables.files.rows,
      objectPath object = some f.intPath ∧ f.state = .uploading ∧
      ∃ u ∈ tables.users.rows, f.ulUserid = u.userid ∧ u.certSubj = client := by
  unfold authzWrite at h
  split at h
  · cases h
  · rename_i p hp
    split at h
    · cases h
    · rename_i f hfind
      obtain ⟨rfl, hclient⟩ : f.intPath = p ∧
          ∃ u ∈ tables.users.rows, f.ulUserid = u.userid ∧ u.certSubj = client := by
        simpa using List.find?_some hfind
      split_ifs at h with hstate
      exact ⟨f, List.mem_of_find?_eq_some hfind, hp, hstate, hclient⟩

/-- A transfer that writes begins only when the client may write the object. -/
theorem authorizeAsync_write {state : Option Tables} {r : AuthzRequest}
    (h : authorizeAsync state r = .ok ()) (htr : r.transfer = some tr) :
    ∃ tables, state = some tables ∧ ∃ object, objectPath object = some tr.path ∧
      authzWrite tables object tr.client = .ok () := by
  obtain ⟨handle, action, object⟩ := r
  obtain ⟨action', haction, htr⟩ := Option.bind_eq_some_iff.1 htr
  obtain rfl : action = some action' := haction
  split_ifs at htr with hwrite
  · obtain ⟨handle', hhandle, htr⟩ := Option.bind_eq_some_iff.1 htr
    obtain ⟨gssCtx, hctx, htr⟩ := Option.bind_eq_some_iff.1 htr
    obtain ⟨client, hclient, htr⟩ := Option.bind_eq_some_iff.1 htr
    obtain ⟨path, hbind, htransfer⟩ := Option.bind_eq_some_iff.1 htr
    obtain ⟨object', hobject, hpath⟩ := Option.bind_eq_some_iff.1 hbind
    obtain rfl : handle = some handle' := hhandle
    obtain rfl : object = some object' := hobject
    obtain rfl := Option.some.inj htransfer
    obtain ⟨ctx⟩ := handle'
    obtain rfl : ctx = some gssCtx := hctx
    obtain ⟨name⟩ := gssCtx
    obtain rfl : name = some client := hclient
    cases state with
    | none => cases h
    | some tables =>
      refine ⟨tables, rfl, object', hpath, ?_⟩
      rcases hwrite with rfl | rfl
      · exact h
      · exact h

/-- The hashes of the users are those of their names. -/
theorem users_of_reachable {s : UploadState}
    (h : (uploadSystem config md5).Reachable System.Always s) :
    ∀ u ∈ s.tables.users.rows, u.userid = md5 u.certSubj := by
  obtain ⟨g, hg⟩ := System.reachable_iff_recorded.1 h
  exact (originates_of_reachable hg).tables.users

/-- Whoever may write a file has the hash of a client that has asked for its upload. -/
theorem askedFor_of_authzWrite {s : UploadState} {asked : List Request}
    (hmd5 : ∀ s, ch '/' ∉ md5 s) (hreach : (uploadSystem config md5).Reachable System.Always s)
    (hs : s.AskedIn md5 asked) {object client : Bytes} (hpath : objectPath object = some path)
    (h : authzWrite s.tables object client = .ok ()) : AskedFor md5 config asked path client := by
  obtain ⟨f, hf, hobject, -, u, hu, huserid, rfl⟩ := authzWrite_eq_ok h
  obtain rfl := Option.some.inj (hpath.symm.trans hobject)
  obtain ⟨job, cls, name, peer, hask, hju, hname, hpeer⟩ := hs.files f hf
  obtain ⟨owner, regTime, -, -, hintPath, -⟩ :=
    (UploadState.Kept.of_reachable hmd5 hreach).tables.placed f hf
  refine ⟨job, cls, name, peer, f.jobid, owner, regTime, hask, hju, ?_, hname ▸ hintPath⟩
  rw [← hpeer, huserid, users_of_reachable hreach u hu]

variable (config md5) in
/-- Who sends and who has sent to the files has the hash of one that has asked for their
    upload. -/
structure FtpSound (s : FtpState) : Prop where
  reach : (uploadSystem config md5).Reachable System.Always s.storage
  storage : s.storage.AskedIn md5 s.asked
  transfers : ∀ tr, some tr ∈ s.transfers → AskedFor md5 config s.asked tr.path tr.client
  written : ∀ path, ∀ w ∈ s.written path, AskedFor md5 config s.asked path w.1

theorem FtpSound.writes (hs : FtpSound config md5 s)
    (htr : AskedFor md5 config s.asked tr.path tr.client) (w : FileWrite) :
    FtpSound config md5 (s.writes tr w) := by
  refine ⟨hs.reach, hs.storage, hs.transfers, fun path v hv => ?_⟩
  rcases eq_or_ne path tr.path with rfl | hne
  · replace hv : v ∈ Function.update s.written tr.path (s.written tr.path ++ [(tr.client, w)])
        tr.path := hv
    rw [Function.update_self] at hv
    rcases List.mem_append.1 hv with hv | hv
    · exact hs.written _ v hv
    · rw [List.mem_singleton.1 hv]
      exact htr
  · exact hs.written _ v ((Function.update_of_ne hne ..).subst hv)

theorem FtpSound.step (hmd5 : ∀ s, ch '/' ∉ md5 s) (hs : FtpSound config md5 s)
    (h : ftpStep config md5 s a = some t) : FtpSound config md5 t := by
  cases a with
  | storage b =>
    obtain ⟨storage, hstep, rfl⟩ := Option.map_eq_some_iff.1 h
    have hgrows : s.asked ⊆ s.asked ++ b.asks := List.subset_append_left _ _
    exact ⟨hs.reach.tail (a := b) trivial hstep, hs.storage.step hstep,
      fun tr htr => (hs.transfers tr htr).mono hgrows,
      fun path w hw => (hs.written path w hw).mono hgrows⟩
  | authorize r connected =>
    simp only [ftpStep] at h
    split at h
    · obtain rfl := Option.some.inj h
      exact hs
    · rename_i hauth
      split at h
      · rename_i tr htr
        obtain rfl := Option.some.inj h
        obtain ⟨tables, hstate, object, hpath, hwrite⟩ := authorizeAsync_write hauth htr
        have hasked : AskedFor md5 config s.asked tr.path tr.client := by
          split_ifs at hstate
          obtain rfl := Option.some.inj hstate
          exact askedFor_of_authzWrite hmd5 hs.reach hs.storage hpath hwrite
        have hbegun : FtpSound config md5 { s with transfers := s.transfers ++ [some tr] } := by
          refine ⟨hs.reach, hs.storage, fun tr' htr' => ?_, hs.written⟩
          rcases List.mem_append.1 htr' with htr' | htr'
          · exact hs.transfers tr' htr'
          · obtain rfl := Option.some.inj (List.mem_singleton.1 htr')
            exact hasked
        exact hbegun.writes hasked .opened
      · obtain rfl := Option.some.inj h
        exact hs
  | write i offset data =>
    simp only [ftpStep] at h
    split at h
    · rename_i tr htr
      obtain rfl := Option.some.inj h
      exact hs.writes (hs.transfers tr (List.mem_of_getElem? htr)) _
    · cases h
  | close i =>
    obtain rfl := Option.some.inj h
    refine ⟨hs.reach, hs.storage, fun tr htr => ?_, hs.written⟩
    rcases List.mem_or_eq_of_mem_set htr with htr | htr
    · exact hs.transfers tr htr
    · cases htr

theorem ftpSound_of_reachable (hmd5 : ∀ s, ch '/' ∉ md5 s)
    (h : (ftpSystem config md5).Reachable System.Always s) : FtpSound config md5 s := by
  refine h.invariant (fun s hs => ?_) fun s a t hs _ hst => hs.step hmd5 hst
  obtain ⟨hinit, -, htransfers, hwritten⟩ := hs
  have hempty : s.storage = ⟨⟨.empty, .empty, .empty⟩, []⟩ := hinit
  refine ⟨.init hinit, ⟨fun f hf => ?_, fun p hp => ?_⟩, fun tr htr => ?_, fun path w hw => ?_⟩
  · rw [hempty] at hf
    cases hf
  · rw [hempty] at hp
    cases hp
  · rw [htransfers] at htr
    cases htr
  · rw [hwritten] at hw
    cases hw

/-- In every run, whatever was done to a file was done by a client with the hash of one that
    has asked the storage to upload this very file. -/
theorem asked_of_reachable (hmd5 : ∀ s, ch '/' ∉ md5 s)
    (h : (ftpSystem config md5).Reachable System.Always s) :
    ∀ path, ∀ w ∈ s.written path, AskedFor md5 config s.asked path w.1 :=
  (ftpSound_of_reachable hmd5 h).written

variable (config md5) in
/-- A file is committed, no transfer to it is going on, and this was written to it. -/
structure SettledFile (f : FileRow) (written : List (Bytes × FileWrite)) (s : FtpState) : Prop where
  reach : (uploadSystem config md5).Reachable System.Always s.storage
  mem : f ∈ s.storage.tables.files.rows
  closed : ∀ tr, some tr ∈ s.transfers → tr.path ≠ f.intPath
  written : s.written f.intPath = written

/-- What is done to another file leaves it as it is. -/
theorem SettledFile.writes {written : List (Bytes × FileWrite)}
    (hs : SettledFile config md5 f written s) (hne : tr.path ≠ f.intPath) (w : FileWrite) :
    SettledFile config md5 f written (s.writes tr w) :=
  ⟨hs.reach, hs.mem, hs.closed, (Function.update_of_ne hne.symm ..).trans hs.written⟩

/-- No transfer to a committed file can begin. -/
theorem SettledFile.step (hmd5 : ∀ s, ch '/' ∉ md5 s) (hc : f.state = .committed)
    {written : List (Bytes × FileWrite)} (hs : SettledFile config md5 f written s)
    (h : ftpStep config md5 s a = some t) : SettledFile config md5 f written t := by
  cases a with
  | storage b =>
    obtain ⟨storage, hstep, rfl⟩ := Option.map_eq_some_iff.1 h
    have hrun : (uploadSystem config md5).Steps System.Always s.storage storage :=
      (System.Steps.refl _).tail (a := b) trivial hstep
    exact ⟨hs.reach.tail (a := b) trivial hstep,
      (committed_kept hmd5 hs.reach hs.mem hc hrun).1, hs.closed, hs.written⟩
  | authorize r connected =>
    simp only [ftpStep] at h
    split at h
    · obtain rfl := Option.some.inj h
      exact hs
    · rename_i hauth
      split at h
      · rename_i tr htr
        obtain rfl := Option.some.inj h
        obtain ⟨tables, hstate, object, hpath, hwrite⟩ := authorizeAsync_write hauth htr
        have hne : tr.path ≠ f.intPath := by
          rintro heq
          split_ifs at hstate
          obtain rfl := Option.some.inj hstate
          exact (committed_kept hmd5 hs.reach hs.mem hc (.refl _)).2 object tr.client
            (heq ▸ hpath) hwrite
        have hbegun : SettledFile config md5 f written
            { s with transfers := s.transfers ++ [some tr] } := by
          refine ⟨hs.reach, hs.mem, fun tr' htr' => ?_, hs.written⟩
          rcases List.mem_append.1 htr' with htr' | htr'
          · exact hs.closed tr' htr'
          · obtain rfl := Option.some.inj (List.mem_singleton.1 htr')
            exact hne
        exact hbegun.writes hne .opened
      · obtain rfl := Option.some.inj h
        exact hs
  | write i offset data =>
    simp only [ftpStep] at h
    split at h
    · rename_i tr htr
      obtain rfl := Option.some.inj h
      exact hs.writes (hs.closed tr (List.mem_of_getElem? htr)) _
    · cases h
  | close i =>
    obtain rfl := Option.some.inj h
    refine ⟨hs.reach, hs.mem, fun tr htr => ?_, hs.written⟩
    rcases List.mem_or_eq_of_mem_set htr with htr | htr
    · exact hs.closed tr htr
    · cases htr

/-- Once a file is committed and no transfer to it is going on, it stays committed, and what was
    written to it stays as it is. -/
theorem written_of_committed (hmd5 : ∀ s, ch '/' ∉ md5 s)
    (hs : (ftpSystem config md5).Reachable System.Always s) (hf : f ∈ s.storage.tables.files.rows)
    (hc : f.state = .committed) (hclosed : ∀ tr, some tr ∈ s.transfers → tr.path ≠ f.intPath)
    (hst : (ftpSystem config md5).Steps System.Always s t) :
    f ∈ t.storage.tables.files.rows ∧ t.written f.intPath = s.written f.intPath := by
  have hsettled : SettledFile config md5 f (s.written f.intPath) t :=
    hst.preserves (fun _ _ _ hs _ hst => hs.step hmd5 hc hst)
      ⟨(ftpSound_of_reachable hmd5 hs).reach, hf, hclosed, rfl⟩
  exact ⟨hsettled.mem, hsettled.written⟩

end Written

/-! ## The file of the sample job -/

/-- The first client asks to create the file. -/
def createRequest : AuthzRequest where
  handle := some ⟨some ⟨some (ascii "/CN=alice")⟩⟩
  action := some (ascii "create")
  object := some sampleObject

/-- The upload was begun and its commit was checked, and the file is being sent. -/
def sendingFile : List FtpAction :=
  checkedCommit.map .storage ++ [.authorize createRequest true, .write 0 0 (ascii "dump")]

def ftpRun (actions : List FtpAction) : Option FtpState :=
  actions.foldlM (fun s a =>
    if System.Always s a then ftpStep sampleConfig sampleMd5 s a else none)
    ⟨⟨⟨.empty, .empty, .empty⟩, []⟩, [], [], fun _ => []⟩

theorem reachable_of_ftpRun {actions : List FtpAction} {s : FtpState}
    (h : ftpRun actions = some s) :
    (ftpSystem sampleConfig sampleMd5).Reachable System.Always s :=
  have hinit : (ftpSystem sampleConfig sampleMd5).init
      ⟨⟨⟨.empty, .empty, .empty⟩, []⟩, [], [], fun _ => []⟩ := ⟨rfl, rfl, rfl, fun _ => rfl⟩
  ⟨_, hinit, .of_foldlM (fun _ _ _ h => h) h⟩

/-- The committed file, with what the first client has sent. -/
def SentFile (s : FtpState) : Prop :=
  sampleUpload (ascii "/CN=alice") none .committed ∈ s.storage.tables.files.rows ∧
    s.written (sampleUpload [] none .committed).intPath =
      [(ascii "/CN=alice", .opened), (ascii "/CN=alice", .block 0 (ascii "dump"))]

instance : DecidablePred SentFile := fun _ => inferInstanceAs (Decidable (_ ∧ _))

theorem sentFile_run : (ftpRun (sendingFile ++ [.close 0, .storage (.exec 2 10)])).any
    (fun s => SentFile s ∧ s.transfers = [none]) = true := by
  decide +kernel

theorem asked_of_reachable_sample : ∃ s, SentFile s ∧
    ∀ path, ∀ w ∈ s.written path, AskedFor sampleMd5 sampleConfig s.asked path w.1 := by
  obtain ⟨s, hrun, hs⟩ := Option.any_eq_true _ _ |>.1 sentFile_run
  exact ⟨s, (of_decide_eq_true hs).1,
    asked_of_reachable sampleMd5_slash (reachable_of_ftpRun hrun)⟩

theorem written_of_committed_sample : ∃ s, SentFile s ∧
    ∀ t, (ftpSystem sampleConfig sampleMd5).Steps System.Always s t →
      t.written (sampleUpload [] none .committed).intPath =
        [(ascii "/CN=alice", .opened), (ascii "/CN=alice", .block 0 (ascii "dump"))] := by
  obtain ⟨s, hrun, hs⟩ := Option.any_eq_true _ _ |>.1 sentFile_run
  obtain ⟨hsent, htransfers⟩ := of_decide_eq_true hs
  refine ⟨s, hsent, fun t ht => ?_⟩
  have hclosed : ∀ tr, some tr ∈ s.transfers →
      tr.path ≠ (sampleUpload (ascii "/CN=alice") none .committed).intPath := fun tr htr => by
    rw [htransfers] at htr
    cases List.mem_singleton.1 htr
  exact (written_of_committed sampleMd5_slash (reachable_of_ftpRun hrun) hsent.1 rfl hclosed
    ht).2.trans hsent.2

/-- A transfer that is still going on writes to the committed file. -/
theorem exists_lateWrite : ∃ s t, (ftpSystem sampleConfig sampleMd5).Reachable System.Always s ∧
    SentFile s ∧ (ftpSystem sampleConfig sampleMd5).step s (.write 0 4 (ascii "late")) t ∧
    ¬SentFile t := by
  have hrun : (ftpRun (sendingFile ++ [.storage (.exec 2 10)])).any (fun s => SentFile s ∧
      (ftpStep sampleConfig sampleMd5 s (.write 0 4 (ascii "late"))).any (¬SentFile ·)) = true := by
    decide +kernel
  obtain ⟨s, hs, hsent⟩ := Option.any_eq_true _ _ |>.1 hrun
  obtain ⟨hsent, hlate⟩ := of_decide_eq_true hsent
  obtain ⟨t, ht, hnot⟩ := Option.any_eq_true _ _ |>.1 hlate
  exact ⟨s, t, reachable_of_ftpRun hs, hsent, ht, of_decide_eq_true hnot⟩

end JobProvenance
