import JobProvenance.Primary.Upload

/-!
# Where rows come from

The rows of the primary storage do not tell all of what they were made from: a job has
only the hash of its owner's name, and a file has one name made of its class and its own
name. A history keeps what was asked for.

* `UploadHistory`: who registered the jobs, and as what the files are uploaded;
* `Originates`: what the rows have to do with it, in every reachable state
  (`originates_of_reachable`);
* `authzRead`: whether a client may read a file, which is decided by the hash of the
  owner's name and does not depend on the state of the file (`authzRead_eq_ok`);
* `readsRight_iff`: when that is the decision about the owner of a committed file.
-/

namespace JobProvenance

/-! ## The history -/

/-- What was asked for: by each call, the owners of the jobs that were registered, and the
    class and the name under which each file is uploaded. -/
structure UploadHistory where
  requests : ℕ → Option Request
  registered : List (Bytes × Bytes)
  uploaded : Bytes × Bytes → Option (Bytes × Option Bytes)

/-- The owner a registration is made for. -/
def Request.owner : Request → Option Bytes
  | .registerJob _ owner _ => some owner
  | _ => none

/-- What an upload is called. -/
def Request.fileName : Request → Option (Bytes × Option Bytes)
  | .startUpload _ cls name _ => some (cls, name)
  | _ => none

/-- A statement is executed for a request. -/
def UploadHistory.exec (h : UploadHistory) (t : Tables) (request : Option Request) :
    Proc → UploadHistory
  | .insertJob row =>
    match request.bind Request.owner, t.jobs.insert row with
    | some owner, some _ => { h with registered := h.registered ++ [⟨row.jobid, owner⟩] }
    | _, _ => h
  | .insertFile row =>
    if (t.files.insert row).isSome then
      let uploaded := Function.update h.uploaded (row.jobid, row.filename)
        (request.bind Request.fileName)
      { h with uploaded }
    else h
  | _ => h

/-- A step is recorded. -/
def recordUpload (s : UploadState) (a : UploadAction) (h : UploadHistory) : UploadHistory :=
  match a with
  | .call request => { h with requests := Function.update h.requests s.calls.length (some request) }
  | .exec i _ =>
    match s.calls[i]? with
    | some (.next p) => h.exec s.tables (h.requests i) p
    | _ => h
  | .fail _ => h

variable (config : Config) (md5 : Bytes → Bytes)

/-- The primary storage with its history. -/
def uploadHistory : System (UploadState × UploadHistory) UploadAction :=
  (uploadSystem config md5).recorded ⟨fun _ => none, [], fun _ => none⟩
    fun s a _ h => recordUpload s a h

/-- A file belongs to a registered job, and its URL is that of the job. -/
def FileRow.Belongs (t : Tables) (f : FileRow) : Prop :=
  ∃ j ∈ t.jobs.rows, j.jobid = f.jobid ∧
    f.extUrl = dataPath config.externalPath j.owner j.regTime j.jobid f.filename

/-- A call in progress will write what its request says. -/
def Proc.Originates (t : Tables) (request : Option Request) : Proc → Prop
  | .storeOwner row owner => jobidUniquePathname row.dgJobid true = .ok row.jobid ∧
      request.bind Request.owner = some owner ∧ row.owner = md5 owner
  | .insertJob row => jobidUniquePathname row.dgJobid true = .ok row.jobid ∧
      (∃ owner, request.bind Request.owner = some owner ∧ row.owner = md5 owner) ∧
      ∃ u ∈ t.users.rows, u.userid = row.owner
  | .selectJob _ cls name _ => request.bind Request.fileName = some (cls, name)
  | .storePeer row peername => row.Belongs config t ∧ row.ulUserid = md5 peername ∧
      ∃ cls name, request.bind Request.fileName = some (cls, name) ∧
        row.filename = dataBasename cls name
  | .deleteExpired row | .insertFile row => row.Belongs config t ∧
      ∃ cls name, request.bind Request.fileName = some (cls, name) ∧
        row.filename = dataBasename cls name
  | .selectUpload .. | .commitFile .. => True

/-- The rows come from what was asked for. -/
structure Tables.Originates (t : Tables) (h : UploadHistory) : Prop where
  users : ∀ u ∈ t.users.rows, u.userid = md5 u.certSubj
  owners : ∀ j ∈ t.jobs.rows, ∃ u ∈ t.users.rows, u.userid = j.owner
  registered : t.jobs.rows.map (fun j => (j.jobid, j.owner)) =
    h.registered.map (fun r => (r.1, md5 r.2))
  pathname : ∀ j ∈ t.jobs.rows, jobidUniquePathname j.dgJobid true = .ok j.jobid
  belongs : ∀ f ∈ t.files.rows, f.Belongs config t
  uploaded : ∀ f ∈ t.files.rows, ∃ cls name,
    h.uploaded (f.jobid, f.filename) = some (cls, name) ∧ f.filename = dataBasename cls name

/-- What every reachable state has to do with its history. -/
structure Originates (s : UploadState) (h : UploadHistory) : Prop where
  tables : s.tables.Originates config md5 h
  calls : ∀ i p, s.calls[i]? = some (Outcome.next p) → p.Originates config md5 s.tables (h.requests i)

/-! ## What a step preserves -/

section Steps

variable {config md5} {t t' : Tables} {h : UploadHistory} {request : Option Request} {p : Proc}
  {now : ℤ} {s s' : UploadState} {f : FileRow}

/-- Jobs and users stay. -/
def Tables.Grows (t t' : Tables) : Prop :=
  (∀ j ∈ t.jobs.rows, j ∈ t'.jobs.rows) ∧ ∀ u ∈ t.users.rows, u ∈ t'.users.rows

theorem FileRow.Belongs.grows (hf : f.Belongs config t) (ht : t.Grows t') : f.Belongs config t' := by
  obtain ⟨j, hj, hf⟩ := hf
  exact ⟨j, ht.1 j hj, hf⟩

theorem Proc.Originates.grows (hp : p.Originates config md5 t request) (ht : t.Grows t') :
    p.Originates config md5 t' request := by
  cases p with
  | insertJob row =>
    obtain ⟨hju, howner, u, hu, hrow⟩ := hp
    exact ⟨hju, howner, u, ht.2 u hu, hrow⟩
  | storePeer row peername | deleteExpired row | insertFile row => exact ⟨hp.1.grows ht, hp.2⟩
  | storeOwner row owner | selectJob ju cls name peername | selectUpload destination peername
  | commitFile jobid filename peername => exact hp

theorem mem_storeUser {userid subj : Bytes} {u : UserRow}
    (hu : u ∈ (storeUser t userid subj).users.rows) : u ∈ t.users.rows ∨ u = ⟨userid, subj⟩ := by
  rw [storeUser] at hu
  cases hi : t.users.insert ⟨userid, subj⟩ with
  | none =>
    rw [hi] at hu
    exact .inl hu
  | some users =>
    rw [hi] at hu
    change u ∈ users.rows at hu
    rw [(Table.insert_eq_some.1 hi).2] at hu
    exact (List.mem_append.1 hu).imp_right List.mem_singleton.1

theorem grows_storeUser (t : Tables) (userid subj : Bytes) : t.Grows (storeUser t userid subj) := by
  refine ⟨fun j hj => hj, fun u hu => ?_⟩
  rw [storeUser]
  cases hi : t.users.insert ⟨userid, subj⟩ with
  | none => exact hu
  | some users =>
    change u ∈ users.rows
    rw [(Table.insert_eq_some.1 hi).2]
    exact List.mem_append_left _ hu

/-- Storing a user, it is there, perhaps under another name of the same hash. -/
theorem exists_storeUser {subj : Bytes} (ht : ∀ u ∈ t.users.rows, u.userid = md5 u.certSubj) :
    ∃ u ∈ (storeUser t (md5 subj) subj).users.rows, u.userid = md5 subj := by
  cases hi : t.users.insert ⟨md5 subj, subj⟩ with
  | none =>
    obtain ⟨u, hu, hclash⟩ := Table.insert_eq_none.1 hi
    refine ⟨u, (grows_storeUser t _ _).2 u hu, ?_⟩
    rcases hclash with hid | hsubj
    · exact hid
    · exact (ht u hu).trans (congrArg md5 hsubj)
  | some users =>
    refine ⟨⟨md5 subj, subj⟩, ?_, rfl⟩
    rw [storeUser, hi]
    change _ ∈ users.rows
    rw [(Table.insert_eq_some.1 hi).2]
    exact List.mem_append_right _ (List.mem_singleton_self _)

theorem grows_execStmt : t.Grows (execStmt config md5 now t p).1 := by
  have hrefl : t.Grows t := ⟨fun _ => id, fun _ => id⟩
  cases p with
  | storeOwner row owner => exact grows_storeUser ..
  | storePeer row peername => exact grows_storeUser ..
  | deleteExpired row => exact hrefl
  | commitFile jobid filename peername => exact hrefl
  | insertJob row =>
    simp only [execStmt]
    split
    · rename_i jobs hi
      refine ⟨fun j hj => ?_, fun u hu => hu⟩
      rw [(Table.insert_eq_some.1 hi).2]
      exact List.mem_append_left _ hj
    · exact hrefl
  | insertFile row =>
    simp only [execStmt]
    split <;> exact hrefl
  | selectJob ju cls name peername =>
    simp only [execStmt]
    split <;> exact hrefl
  | selectUpload destination peername =>
    simp only [execStmt]
    split
    · exact hrefl
    · split_ifs <;> exact hrefl

/-- The rows come from what was asked for when users are stored. -/
theorem Tables.Originates.storeUser {subj : Bytes} (ht : t.Originates config md5 h) :
    (JobProvenance.storeUser t (md5 subj) subj).Originates config md5 h := by
  have hgrows := grows_storeUser t (md5 subj) subj
  refine { ht with users := fun u hu => ?_, owners := fun j hj => ?_ }
  · rcases mem_storeUser hu with hu | rfl
    · exact ht.users u hu
    · rfl
  · obtain ⟨u, hu, hrow⟩ := ht.owners j hj
    exact ⟨u, hgrows.2 u hu, hrow⟩

theorem Tables.Originates.insertJob {row : JobRow} {jobs : Table JobRow JobRow.Clash}
    (ht : t.Originates config md5 h) (hp : (Proc.insertJob row).Originates config md5 t request)
    (hi : t.jobs.insert row = some jobs) :
    ({ t with jobs } : Tables).Originates config md5 (h.exec t request (.insertJob row)) := by
  obtain ⟨hju, ⟨owner, hrequest, howner⟩, huser⟩ := hp
  have hrows := (Table.insert_eq_some.1 hi).2
  have hexec : h.exec t request (.insertJob row) =
      { h with registered := h.registered ++ [⟨row.jobid, owner⟩] } := by
    simp only [UploadHistory.exec, hrequest, hi]
  have hall : ∀ P : JobRow → Prop, (∀ j ∈ t.jobs.rows, P j) → P row → ∀ j ∈ jobs.rows, P j := by
    intro P hP hrow j hj
    rcases List.mem_append.1 (hrows ▸ hj) with hj | hj
    · exact hP j hj
    · exact List.mem_singleton.1 hj ▸ hrow
  rw [hexec]
  refine ⟨ht.users, hall _ ht.owners huser, ?_, hall _ ht.pathname hju, fun f hf => ?_, ht.uploaded⟩
  · rw [hrows, List.map_append, List.map_append, ht.registered, List.map_singleton,
      List.map_singleton, howner]
  · refine (ht.belongs f hf).grows ⟨fun j hj => ?_, fun u hu => hu⟩
    exact hrows ▸ List.mem_append_left _ hj

theorem Tables.Originates.insertFile {row : FileRow} {files : Table FileRow FileRow.Clash}
    (ht : t.Originates config md5 h) (hp : (Proc.insertFile row).Originates config md5 t request)
    (hi : t.files.insert row = some files) :
    ({ t with files } : Tables).Originates config md5 (h.exec t request (.insertFile row)) := by
  obtain ⟨hbelongs, cls, name, hrequest, hfilename⟩ := hp
  obtain ⟨hno, hrows⟩ := Table.insert_eq_some.1 hi
  have hexec : h.exec t request (.insertFile row) =
      { h with uploaded := Function.update h.uploaded (row.jobid, row.filename) (some (cls, name)) } := by
    simp only [UploadHistory.exec, hi, Option.isSome_some, if_true, hrequest]
  rw [hexec]
  refine ⟨ht.users, ht.owners, ht.registered, ht.pathname, fun f hf => ?_, fun f hf => ?_⟩ <;>
    rcases List.mem_append.1 (hrows ▸ hf) with hf | hf
  · exact ht.belongs f hf
  · exact List.mem_singleton.1 hf ▸ hbelongs
  · -- a file of another key is still uploaded as it was
    have hne : (f.jobid, f.filename) ≠ (row.jobid, row.filename) := fun he =>
      hno f hf ⟨congrArg Prod.fst he, congrArg Prod.snd he⟩
    obtain ⟨cls', name', huploaded, hf⟩ := ht.uploaded f hf
    exact ⟨cls', name', (Function.update_of_ne hne ..).trans huploaded, hf⟩
  · obtain rfl := List.mem_singleton.1 hf
    exact ⟨cls, name, Function.update_self .., hfilename⟩

/-- What is not inserted is not recorded. -/
theorem exec_insertFile_eq {row : FileRow} (hi : t.files.insert row = none) :
    h.exec t request (.insertFile row) = h := by
  simp only [UploadHistory.exec, hi, Option.isSome_none, Bool.false_eq_true, if_false]

theorem exec_insertJob_eq {row : JobRow} (hi : t.jobs.insert row = none) :
    h.exec t request (.insertJob row) = h := by
  simp only [UploadHistory.exec, hi]
  cases request.bind Request.owner <;> rfl

/-- Changing files in their states only, the rows come from what was asked for. -/
theorem Tables.Originates.ofFiles {files : Table FileRow FileRow.Clash}
    (ht : t.Originates config md5 h) (hfiles : ∀ g ∈ files.rows, ∃ f ∈ t.files.rows,
      f.jobid = g.jobid ∧ f.filename = g.filename ∧ f.extUrl = g.extUrl) :
    ({ t with files } : Tables).Originates config md5 h := by
  refine { ht with belongs := fun g hg => ?_, uploaded := fun g hg => ?_ }
  all_goals
    obtain ⟨f, hf, hjobid, hfilename, hurl⟩ := hfiles g hg
  · have hbelongs := ht.belongs f hf
    rw [FileRow.Belongs, hjobid, hfilename, hurl] at hbelongs
    exact hbelongs
  · rw [← hjobid, ← hfilename]
    exact ht.uploaded f hf

/-- A statement leaves rows that come from what was asked for, and its call ready for the
    next one. -/
theorem execStmt_originates (ht : t.Originates config md5 h)
    (hp : p.Originates config md5 t request) :
    (execStmt config md5 now t p).1.Originates config md5 (h.exec t request p) ∧
      ∀ p', (execStmt config md5 now t p).2 = .next p' →
        p'.Originates config md5 (execStmt config md5 now t p).1 request := by
  cases p with
  | storeOwner row owner =>
    obtain ⟨hju, hrequest, howner⟩ := hp
    rw [execStmt, howner]
    refine ⟨ht.storeUser, ?_⟩
    rintro _ ⟨⟩
    exact ⟨hju, ⟨owner, hrequest, howner⟩, howner ▸ exists_storeUser ht.users⟩
  | insertJob row =>
    -- a job that is there already stays as it is, and the registration is no origin of it
    cases hi : t.jobs.insert row with
    | some jobs =>
      have hstmt : execStmt config md5 now t (.insertJob row) = ({ t with jobs }, .done none) := by
        simp only [execStmt, hi]
      rw [hstmt]
      exact ⟨ht.insertJob hp hi, by rintro _ ⟨⟩⟩
    | none =>
      have hstmt : execStmt config md5 now t (.insertJob row) = (t, .done (some .EEXIST)) := by
        simp only [execStmt, hi]
      rw [hstmt, exec_insertJob_eq hi]
      exact ⟨ht, by rintro _ ⟨⟩⟩
  | selectJob ju cls name peername =>
    refine ⟨?_, fun p' hp' => ?_⟩
    · simp only [execStmt]
      split <;> exact ht
    · simp only [execStmt] at hp' ⊢
      split at hp'
      · cases hp'
      · rename_i row hrow
        cases hp'
        have hju : row.jobid = ju := by simpa using List.find?_some hrow
        refine ⟨⟨row, List.mem_of_find?_eq_some hrow, hju, ?_⟩, rfl, cls, name, hp, rfl⟩
        rw [hju]
  | storePeer row peername =>
    obtain ⟨hbelongs, hpeer, hname⟩ := hp
    rw [execStmt, hpeer]
    refine ⟨ht.storeUser, ?_⟩
    rintro _ ⟨⟩
    exact ⟨hbelongs.grows (grows_storeUser ..), hname⟩
  | deleteExpired row =>
    refine ⟨ht.ofFiles fun g hg => ⟨g, (Table.mem_delete.1 hg).1, rfl, rfl, rfl⟩, ?_⟩
    rintro _ ⟨⟩
    exact hp
  | insertFile row =>
    cases hi : t.files.insert row with
    | some files =>
      have hstmt : execStmt config md5 now t (.insertFile row) = ({ t with files }, .done none) := by
        simp only [execStmt, hi]
      rw [hstmt]
      exact ⟨ht.insertFile hp hi, by rintro _ ⟨⟩⟩
    | none =>
      have hstmt : execStmt config md5 now t (.insertFile row) = (t, .done (some .EEXIST)) := by
        simp only [execStmt, hi]
      rw [hstmt, exec_insertFile_eq hi]
      exact ⟨ht, by rintro _ ⟨⟩⟩
  | selectUpload destination peername =>
    simp only [execStmt]
    split
    · exact ⟨ht, by rintro _ ⟨⟩⟩
    · split_ifs
      · exact ⟨ht, by rintro _ ⟨⟩⟩
      · refine ⟨ht, ?_⟩
        rintro _ ⟨⟩
        trivial
  | commitFile jobid filename peername =>
    refine ⟨ht.ofFiles fun g hg => ?_, by rintro _ ⟨⟩⟩
    obtain ⟨f, hf, rfl⟩ := mem_commitRows.1 hg
    refine ⟨f, hf, (commitRow_key ..).1.symm, (commitRow_key ..).2.1.symm, ?_⟩
    rw [commitRow]
    split_ifs <;> rfl

theorem requests_exec : (h.exec t request p).requests = h.requests := by
  cases p with
  | insertJob row =>
    simp only [UploadHistory.exec]
    split <;> rfl
  | insertFile row =>
    simp only [UploadHistory.exec]
    split <;> rfl
  | _ => rfl

/-- A call starts with the statement its request says. -/
theorem call_originates {request : Request} {outcome : Outcome}
    (hr : request.call md5 = .ok outcome) :
    ∀ p, outcome = .next p → p.Originates config md5 t (some request) := by
  rintro p rfl
  cases request with
  | registerJob job owner regTime =>
    obtain ⟨ju, hju, hr⟩ := Exec.bind_eq_ok.1 hr
    cases hr
    exact ⟨hju, rfl, rfl⟩
  | startUpload job cls name peer =>
    obtain ⟨ju, -, hr⟩ := Exec.bind_eq_ok.1 hr
    cases hr
    exact rfl
  | commitUpload destination peer =>
    cases hr
    trivial

/-- A call that starts is recorded at its number. -/
theorem Originates.call {request : Request} {outcome : Outcome} (hs : Originates config md5 s h)
    (ho : ∀ p, outcome = .next p → p.Originates config md5 s.tables (some request)) :
    Originates config md5 { s with calls := s.calls ++ [outcome] }
      { h with requests := Function.update h.requests s.calls.length (some request) } := by
  refine ⟨⟨hs.tables.users, hs.tables.owners, hs.tables.registered, hs.tables.pathname,
    hs.tables.belongs, hs.tables.uploaded⟩, fun i p hi => ?_⟩
  dsimp only at hi ⊢
  rw [List.getElem?_append] at hi
  split_ifs at hi with hlt
  · rw [Function.update_of_ne hlt.ne]
    exact hs.calls i p hi
  · obtain ⟨hlt', hi⟩ := List.getElem?_eq_some_iff.1 hi
    rw [List.getElem_singleton] at hi
    have hlen : i = s.calls.length := by
      rw [List.length_singleton] at hlt'
      omega
    rw [hlen, Function.update_self]
    exact ho p hi

/-- Every step leaves rows that come from what was asked for. -/
theorem Originates.step {a : UploadAction} (hs : Originates config md5 s h)
    (hst : (uploadSystem config md5).step s a s') :
    Originates config md5 s' (recordUpload s a h) := by
  obtain ⟨i, now, p, rfl, hi, rfl⟩ | ⟨request, outcome, rfl, hr, rfl⟩ | ⟨request, ret, rfl, rfl⟩ |
    ⟨i, ret, rfl, rfl⟩ := uploadStep_cases hst
  · have hexec := @execStmt_originates config md5 s.tables h (h.requests i) p now hs.tables
      (hs.calls i p hi)
    rw [recordUpload, hi]
    refine ⟨hexec.1, fun j p' hj => ?_⟩
    dsimp only at hj ⊢
    rw [requests_exec]
    by_cases hij : i = j
    · subst hij
      rw [List.getElem?_set_self (List.getElem?_eq_some_iff.1 hi).1] at hj
      exact hexec.2 p' (Option.some.inj hj)
    · rw [List.getElem?_set_ne hij] at hj
      exact (hs.calls j p' hj).grows grows_execStmt
  · exact hs.call (call_originates hr)
  · exact hs.call nofun
  · refine ⟨hs.tables, fun j p' hj => ?_⟩
    dsimp only at hj ⊢
    by_cases hij : i = j
    · subst hij
      obtain ⟨hlt, hj⟩ := List.getElem?_eq_some_iff.1 hj
      rw [List.getElem_set_self] at hj
      cases hj
    · rw [List.getElem?_set_ne hij] at hj
      exact hs.calls j p' hj

theorem originates_of_reachable {ok : UploadState × UploadHistory → UploadAction → Prop}
    {s : UploadState × UploadHistory} (hs : (uploadHistory config md5).Reachable ok s) :
    Originates config md5 s.1 s.2 := by
  refine hs.invariant (I := fun s => Originates config md5 s.1 s.2) ?_ ?_
  · rintro ⟨s, h⟩ ⟨hs, rfl⟩
    obtain rfl : s = _ := hs
    exact ⟨⟨nofun, nofun, rfl, nofun, nofun, nofun⟩, nofun⟩
  · rintro ⟨s, h⟩ a ⟨s', h'⟩ hs - ⟨hst, hh⟩
    exact hh ▸ hs.step hst

/-- Every job was registered for one owner, whose hash it has. -/
theorem Tables.Originates.exists_registered (ht : t.Originates config md5 h) {j : JobRow}
    (hj : j ∈ t.jobs.rows) :
    ∃ owner, (∀ o, (j.jobid, o) ∈ h.registered ↔ o = owner) ∧ j.owner = md5 owner := by
  have hmem := List.mem_map_of_mem (f := fun j : JobRow => (j.jobid, j.owner)) hj
  rw [ht.registered] at hmem
  obtain ⟨⟨ju, owner⟩, hr, heq⟩ := List.mem_map.1 hmem
  obtain ⟨rfl, hhash⟩ := Prod.mk.inj heq
  refine ⟨owner, fun o => ⟨fun ho => ?_, fun ho => ho ▸ hr⟩, hhash.symm⟩
  have hnodup : (h.registered.map Prod.fst).Nodup := by
    have hjobs : (t.jobs.rows.map (·.jobid)).Nodup :=
      List.pairwise_map.2 (t.jobs.pairwise.imp fun hclash he => hclash (.inl he))
    have := congrArg (List.map Prod.fst) ht.registered
    rw [List.map_map, List.map_map] at this
    exact this ▸ hjobs
  exact congrArg Prod.snd (List.inj_on_of_nodup_map hnodup ho hr rfl)

/-- A state with a history is a state. -/
theorem kept_of_history (hmd5 : ∀ s, ch '/' ∉ md5 s) {s : UploadState × UploadHistory}
    (hs : (uploadHistory config md5).Reachable System.Always s) : s.1.Kept config :=
  have hr : (uploadSystem config md5).Reachable System.Always s.1 :=
    System.reachable_iff_recorded.2 ⟨s.2, hs⟩
  .of_reachable hmd5 hr

end Steps

/-! ## Reading a file -/

/-- Whether a client may read an object. -/
def authzRead (t : Tables) (object client : Bytes) : Except Bytes Unit :=
  match objectPath object with
  | none => .error (ascii "Unsupported file type, access denied")
  | some p =>
    match (t.jobs.rows.product t.files.rows).find? fun (j, f) => f.intPath = p ∧ j.jobid = f.jobid with
    | none => .error (ascii "No such file registered")
    | some (j, _) => if j.owner = client then .ok () else .error (ascii "Permission denied")

/-- Whether the owner's hash decides as the owner and the state of the file would: the
    client is neither of them, or the hash is not asked for and nothing is committed, or the
    owner is called like the hash and the file is committed. -/
def ReadsRight (owner client : Bytes) (state : FileState) : Prop :=
  if client = md5 owner then client = owner ∧ state = .committed
  else client ≠ owner ∨ state = .uploading

instance (owner client : Bytes) (state : FileState) : Decidable (ReadsRight md5 owner client state) :=
  inferInstanceAs (Decidable (if client = md5 owner then client = owner ∧ state = .committed
    else client ≠ owner ∨ state = .uploading))

section Reading

variable {config md5} {s : UploadState × UploadHistory} {f : FileRow} {object client : Bytes}

/-- The job of a file was registered for one owner, whose hash decides whether a client may
    read the file. -/
theorem authzRead_eq_ok (hmd5 : ∀ s, ch '/' ∉ md5 s)
    (hs : (uploadHistory config md5).Reachable System.Always s) (hf : f ∈ s.1.tables.files.rows)
    (hp : objectPath object = some f.intPath) :
    ∃ owner, (∀ o, (f.jobid, o) ∈ s.2.registered ↔ o = owner) ∧
      (authzRead s.1.tables object client = .ok () ↔ client = md5 owner) := by
  have ht := (originates_of_reachable hs).tables
  have hkept := (kept_of_history hmd5 hs).tables
  obtain ⟨j, hj, hjobid, -⟩ := ht.belongs f hf
  obtain ⟨owner, howner, hhash⟩ := ht.exists_registered hj
  rw [hjobid] at howner
  refine ⟨owner, howner, ?_⟩
  have hfound : ((s.1.tables.jobs.rows.product s.1.tables.files.rows).find? fun (j, f') =>
      f'.intPath = f.intPath ∧ j.jobid = f'.jobid) = some (j, f) := by
    refine Table.find?_product_eq_some hj hf (decide_eq_true ⟨rfl, hjobid⟩)
      fun j' hj' f' hf' hfound => ?_
    obtain ⟨hpath, hjob⟩ := of_decide_eq_true hfound
    -- a path has one file, and its key one job
    obtain rfl := hkept.eq_of_intPath hf' hf hpath
    exact ⟨Table.eq_of_clash hj' hj (.inl (hjob.trans hjobid.symm)), rfl⟩
  simp only [authzRead, hp, hfound]
  rw [hhash]
  split_ifs with hclient
  · exact iff_of_true rfl hclient.symm
  · exact iff_of_false nofun (Ne.symm hclient)

/-- The decision about a file is right exactly when the hash of the owner decides as the
    owner and the state of the file would. -/
theorem readsRight_iff (hmd5 : ∀ s, ch '/' ∉ md5 s)
    (hs : (uploadHistory config md5).Reachable System.Always s) (hf : f ∈ s.1.tables.files.rows)
    (hp : objectPath object = some f.intPath) :
    ∃ owner, (∀ o, (f.jobid, o) ∈ s.2.registered ↔ o = owner) ∧
      ((authzRead s.1.tables object client = .ok () ↔ client = owner ∧ f.state = .committed) ↔
        ReadsRight md5 owner client f.state) := by
  obtain ⟨owner, howner, hread⟩ := @authzRead_eq_ok config md5 s f object client hmd5 hs hf hp
  refine ⟨owner, howner, ?_⟩
  rw [hread, ReadsRight]
  split_ifs with hclient
  · exact iff_true_left hclient
  · rw [iff_false_left hclient, not_and_or]
    cases f.state <;> simp

end Reading

/-! ## The owner reads the file -/

/-- The file of the sample job, at the server that has it. -/
def sampleObject : Bytes := ascii "gsiftp://host" ++ (sampleUpload [] none .committed).intPath

/-- A client has registered the sample job, and uploaded and committed its file. -/
def HasCommitted (client : Bytes) (s : UploadState × UploadHistory) : Prop :=
  s.1.tables.files.rows = [sampleUpload client none .committed] ∧
    s.2.registered = [(ascii "abcdefghij", client)]

instance (client : Bytes) : DecidablePred (HasCommitted client) :=
  fun _ => inferInstanceAs (Decidable (_ ∧ _))

/-- The first client registers the job, and uploads and commits its file. -/
def committedUpload : List UploadAction := checkedCommit ++ [.exec 2 10]

/-- The history of a run of the sample storage. -/
def historyRun (actions : List UploadAction) : Option (UploadState × UploadHistory) :=
  actions.foldlM (fun s a =>
    if System.Always s a then
      System.recordedStep (fun s a _ h => recordUpload s a h) (uploadStep sampleConfig sampleMd5) s a
    else none) (⟨⟨.empty, .empty, .empty⟩, []⟩, ⟨fun _ => none, [], fun _ => none⟩)

theorem reachable_of_historyRun {actions : List UploadAction} {s : UploadState × UploadHistory}
    (h : historyRun actions = some s) :
    (uploadHistory sampleConfig sampleMd5).Reachable System.Always s := by
  have hsteps := System.Steps.of_foldlM (S := uploadHistory sampleConfig sampleMd5)
    (fun _ _ _ => System.recordedStep_eq_some.1) h
  have hinit : (uploadHistory sampleConfig sampleMd5).init
      (⟨⟨.empty, .empty, .empty⟩, []⟩, ⟨fun _ => none, [], fun _ => none⟩) := ⟨rfl, rfl⟩
  exact ⟨_, hinit, hsteps⟩

theorem committed_run : (historyRun committedUpload).any
    (fun s => HasCommitted (ascii "/CN=alice") s ∧
      authzRead s.1.tables sampleObject (ascii "/CN=alice") =
        .error (ascii "Permission denied")) = true := by
  decide +kernel

theorem exists_hasCommitted : ∃ s, (uploadHistory sampleConfig sampleMd5).Reachable System.Always s ∧
    HasCommitted (ascii "/CN=alice") s ∧
      authzRead s.1.tables sampleObject (ascii "/CN=alice") = .error (ascii "Permission denied") := by
  obtain ⟨s, hrun, hs⟩ := (Option.any_eq_true ..).1 committed_run
  exact ⟨s, reachable_of_historyRun hrun, of_decide_eq_true hs⟩

/-- Another client may not read the committed file of the sample job. -/
theorem readsRight_iff_sample : ∃ s, (uploadHistory sampleConfig sampleMd5).Reachable System.Always s ∧
    ∃ f ∈ s.1.tables.files.rows, f.state = .committed ∧ ∃ owner,
      (∀ o, (f.jobid, o) ∈ s.2.registered ↔ o = owner) ∧
        (authzRead s.1.tables sampleObject (ascii "/CN=bob") = .ok () ↔
          ascii "/CN=bob" = owner ∧ f.state = .committed) := by
  obtain ⟨s, hs, ⟨hrows, hregistered⟩, -⟩ := exists_hasCommitted
  have hf : sampleUpload (ascii "/CN=alice") none .committed ∈ s.1.tables.files.rows :=
    hrows ▸ List.mem_singleton_self _
  obtain ⟨owner, howner, hiff⟩ := @readsRight_iff _ _ s _ sampleObject (ascii "/CN=bob") sampleMd5_slash
    hs hf (by decide)
  refine ⟨s, hs, _, hf, rfl, owner, howner, hiff.2 ?_⟩
  obtain rfl : ascii "/CN=alice" = owner :=
    (howner _).1 (hregistered ▸ List.mem_singleton_self _)
  decide

/-- Neither may its owner. -/
theorem not_reads_owner : ∃ s, (uploadHistory sampleConfig sampleMd5).Reachable System.Always s ∧
    ∃ f ∈ s.1.tables.files.rows, ∃ object owner, objectPath object = some f.intPath ∧
      (f.jobid, owner) ∈ s.2.registered ∧ f.state = .committed ∧
        ¬authzRead s.1.tables object owner = .ok () := by
  obtain ⟨s, hs, ⟨hrows, hregistered⟩, hdenied⟩ := exists_hasCommitted
  exact ⟨s, hs, _, hrows ▸ List.mem_singleton_self _, sampleObject, _,
    by decide, hregistered ▸ List.mem_singleton_self _, rfl, by rw [hdenied]; nofun⟩

end JobProvenance
