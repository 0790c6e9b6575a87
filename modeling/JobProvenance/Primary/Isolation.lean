import JobProvenance.Primary.Sending
import JobProvenance.Primary.Upload

/-!
# Jobs that share a unique part

Files and marks are kept by the unique part of a job, what stands behind the last
slash of its identifier. So what is done for a job is done to all the rows of its
unique part, and to no others (`execStmt_spares`, `setFed_frame`): a job is
isolated from the registered ones if and only if it shares the unique part with
none of them (`isolated_iff`). When it does, an upload for it is started although
it was never registered (`not_isolated_sample`).
-/

namespace JobProvenance

/-! ## Requests for a job -/

section Definitions

variable (config : Config) (md5 : Bytes → Bytes)

/-- The requests of uploads of a job: starting one, and committing one at a
    destination that starting one returns. -/
def Request.IsFor (t : Tables) (job : Bytes) : Request → Prop
  | .registerJob .. => False
  | .startUpload job' .. => job' = job
  | .commitUpload destination _ => ∃ ju cls name peername now row,
      jobidUniquePathname job true = .ok ju ∧
      (execStmt config md5 now t (.selectJob ju cls name peername)).2 =
        .next (.storePeer row peername) ∧ row.extUrl = destination

/-- The rows of a unique part. -/
def filesOf (ju : Bytes) (t : Tables) : List FileRow := t.files.rows.filter (·.jobid = ju)

def fedOf (ju : Bytes) (fed : Table FedRow (· = ·)) : List FedRow := fed.rows.filter (·.jobid = ju)

/-- What is done for a job, while other calls go on, leaves the rows of the
    registered jobs as they are, and an upload is not started for a job that is
    not registered. -/
structure Isolated (s : UploadState) (box : Outbox) (job : Bytes) : Prop where
  files : ∀ row ∈ s.tables.jobs.rows, row.dgJobid ≠ job → ∀ request s' t t' now,
    request.IsFor config md5 s.tables job → (uploadSystem config md5).step s (.call request) s' →
    (uploadSystem config md5).Steps System.Always s' t →
    (uploadSystem config md5).step t (.exec s.calls.length now) t' →
    filesOf row.jobid t'.tables = filesOf row.jobid t.tables
  fed : ∀ row ∈ s.tables.jobs.rows, row.dgJobid ≠ job → ∀ feed ret box',
    setFed feed job box = .ok ret box' → fedOf row.jobid box'.fed = fedOf row.jobid box.fed
  start : (∀ row ∈ s.tables.jobs.rows, row.dgJobid ≠ job) → ∀ cls name peer p now,
    startUpload job cls name peer = .ok (.next p) →
      (execStmt config md5 now s.tables p).2 = .done (some .ENOENT)

/-- A call that has nothing to do with a unique part. -/
def Outcome.Spares (ju : Bytes) : Outcome → Prop
  | .next (.selectJob ju' ..) => ju' ≠ ju
  | .next (.storePeer row _) | .next (.deleteExpired row) | .next (.insertFile row) =>
    row.jobid ≠ ju
  | .next (.selectUpload destination _) =>
    ∀ f : FileRow, f.Placed config → f.extUrl = destination → f.jobid ≠ ju
  | .next (.commitFile jobid ..) => jobid ≠ ju
  | .next (.storeOwner ..) | .next (.insertJob ..) | .done _ => True

end Definitions

/-! ## The rows of a unique part -/

section Frame

variable {config : Config} {md5 : Bytes → Bytes} {t : Tables} {p : Proc} {ju job : Bytes} {now : ℤ}
  {s s' : UploadState} {request : Request} {outcome : Outcome} {i : ℕ}

/-- A statement of a call that has nothing to do with a unique part leaves its
    files as they are, and so will the next one. -/
theorem execStmt_spares (ht : t.Kept config) (hp : (Outcome.next p).Spares config ju) :
    filesOf ju (execStmt config md5 now t p).1 = filesOf ju t ∧
      (execStmt config md5 now t p).2.Spares config ju := by
  cases p with
  | storeOwner row owner => exact ⟨rfl, trivial⟩
  | storePeer row peername => exact ⟨rfl, hp⟩
  | insertJob row =>
    simp only [execStmt]
    split <;> exact ⟨rfl, trivial⟩
  | selectJob ju' cls name peername =>
    simp only [execStmt]
    split
    · exact ⟨rfl, trivial⟩
    · exact ⟨rfl, hp⟩
  | selectUpload destination peername =>
    simp only [execStmt]
    split
    · exact ⟨rfl, trivial⟩
    · rename_i f hf
      split_ifs
      · exact ⟨rfl, trivial⟩
      · have hurl := List.find?_some hf
        simp only [decide_eq_true_eq] at hurl
        exact ⟨rfl, hp f (ht.placed f (List.mem_of_find?_eq_some hf)) hurl.1⟩
  | deleteExpired row =>
    refine ⟨Table.filter_delete fun f hf => ?_, hp⟩
    rw [decide_eq_false_iff_not]
    exact fun h => hp (h.1.symm.trans (of_decide_eq_true hf))
  | insertFile row =>
    simp only [execStmt]
    split
    · rename_i files hi
      exact ⟨Table.filter_insert hi (decide_eq_false hp), trivial⟩
    · exact ⟨rfl, trivial⟩
  | commitFile jobid filename peername =>
    refine ⟨Table.filter_update (commitRow_clash jobid filename) (fun f => ?_)
      fun f hf => if_neg fun h => ?_, trivial⟩
    · rw [(commitRow_key jobid filename f).1]
    · exact hp (h.1.symm.trans (of_decide_eq_true hf))

/-- A request for a job has nothing to do with the unique parts of others. -/
theorem call_spares (ht : t.Kept config) (hr : request.IsFor config md5 t job)
    (hju : afterLast (ch '/') job ≠ some ju) (h : request.call md5 = .ok outcome) :
    outcome.Spares config ju := by
  cases request with
  | registerJob job owner regTime => cases hr
  | startUpload job' cls name peer =>
    obtain rfl : job' = job := hr
    obtain ⟨ju', hju', h⟩ := Exec.bind_eq_ok.1 h
    obtain rfl := Except.ok.inj h
    exact fun he => hju (he ▸ afterLast_of_jobidUniquePathname hju')
  | commitUpload destination peer =>
    obtain ⟨ju', cls, name, peername, now, row, hju', hrow, rfl⟩ := hr
    obtain rfl := Except.ok.inj h
    have hkept := (@execStmt_kept config md5 t (.selectJob ju' cls name peername) now ht trivial).2
      _ hrow
    have hjobid : row.jobid = ju' := by
      simp only [execStmt] at hrow
      split at hrow
      · cases hrow
      · cases hrow
        rfl
    intro f hf hurl he
    have hclash := hf.clash_of_extUrl hkept.1 hurl
    rw [← he, hclash.1, hjobid] at hju
    exact hju (afterLast_of_jobidUniquePathname hju')

/-- The call a request starts has nothing to do with the unique parts of others. -/
theorem spares_of_call (hs : s.Kept config) (hr : request.IsFor config md5 s.tables job)
    (hju : afterLast (ch '/') job ≠ some ju)
    (hst : (uploadSystem config md5).step s (.call request) s') :
    s.calls.length < s'.calls.length ∧
      ∀ c, s'.calls[s.calls.length]? = some c → c.Spares config ju := by
  have hst : uploadStep config md5 s (.call request) = some s' := hst
  simp only [uploadStep] at hst
  split at hst
  · rename_i outcome hout
    obtain rfl := Option.some.inj hst
    refine ⟨by simp, fun c hc => ?_⟩
    obtain rfl : outcome = c := by simpa using hc
    exact call_spares hs.tables hr hju hout
  · obtain rfl := Option.some.inj hst
    refine ⟨by simp, fun c hc => ?_⟩
    obtain rfl : Outcome.done _ = c := by simpa using hc
    trivial
  · cases hst

/-- In a run a call goes on having nothing to do with a unique part. -/
theorem spares_of_steps (hmd5 : ∀ s, ch '/' ∉ md5 s) (hs : s.Kept config) (hi : i < s.calls.length)
    (hc : ∀ c, s.calls[i]? = some c → c.Spares config ju)
    (hst : (uploadSystem config md5).Steps System.Always s s') :
    s'.Kept config ∧ ∀ c, s'.calls[i]? = some c → c.Spares config ju := by
  suffices h : s'.Kept config ∧ i < s'.calls.length ∧ ∀ c, s'.calls[i]? = some c → c.Spares config ju
    from ⟨h.1, h.2.2⟩
  refine hst.preserves (I := fun t => t.Kept config ∧ i < t.calls.length ∧
    ∀ c, t.calls[i]? = some c → c.Spares config ju) ?_ ⟨hs, hi, hc⟩
  rintro s a s' ⟨hs, hi, hc⟩ - hst
  refine ⟨hs.step hmd5 hst, ?_⟩
  obtain ⟨j, now, p, -, hj, rfl⟩ | ⟨request, outcome, -, -, rfl⟩ | ⟨request, ret, -, rfl⟩ |
      ⟨j, ret, -, rfl⟩ :=
    uploadStep_cases hst
  · refine ⟨by simpa using hi, fun c hget => ?_⟩
    rw [List.getElem?_set] at hget
    split_ifs at hget with hji
    · obtain rfl := Option.some.inj hget
      exact (execStmt_spares hs.tables (hc _ (hji ▸ hj))).2
    · exact hc c hget
  · refine ⟨by simp only [List.length_append]; omega, fun c hget => ?_⟩
    exact hc c ((List.getElem?_append_left hi).symm.trans hget)
  · refine ⟨by simp only [List.length_append]; omega, fun c hget => ?_⟩
    exact hc c ((List.getElem?_append_left hi).symm.trans hget)
  · refine ⟨by simpa using hi, fun c hget => ?_⟩
    rw [List.getElem?_set] at hget
    split_ifs at hget with hji
    · exact Option.some.inj hget ▸ trivial
    · exact hc c hget

/-- Marking a job leaves the marks of other unique parts as they are. -/
theorem setFed_frame {feed : Bytes} {ret : Ret} {box box' : Outbox}
    (hju : afterLast (ch '/') job ≠ some ju) (h : setFed feed job box = .ok ret box') :
    fedOf ju box'.fed = fedOf ju box.fed := by
  unfold setFed at h
  split at h
  · rename_i row hrow
    obtain ⟨u, hu, hrow⟩ := Exec.bind_eq_ok.1 hrow
    obtain rfl := Except.ok.inj hrow
    split at h
    · rename_i fed hi
      obtain ⟨-, rfl⟩ := EStateM.Result.ok.inj h
      have hne : u ≠ ju := fun he => hju (he ▸ afterLast_of_jobidUniquePathname hu)
      exact Table.filter_insert hi (decide_eq_false hne)
    · exact (EStateM.Result.ok.inj h).2 ▸ rfl
  · exact (EStateM.Result.ok.inj h).2 ▸ rfl
  · cases h

end Frame

/-! ## Isolation -/

section Isolation

variable {config : Config} {md5 : Bytes → Bytes} {s : UploadState} {box : Outbox} {job : Bytes}

/-- There is a feed without marks. -/
theorem exists_unmarked (fed : Table FedRow (· = ·)) : ∃ feed, ∀ r ∈ fed.rows, r.feedid ≠ feed := by
  obtain ⟨feed, hfeed⟩ := Infinite.exists_notMem_finset (fed.rows.map (·.feedid)).toFinset
  refine ⟨feed, fun r hr he => hfeed ?_⟩
  rw [List.mem_toFinset]
  exact List.mem_map.2 ⟨r, hr, he⟩

/-- A new mark is among the marks of its unique part. -/
theorem exists_setFed {ju : Bytes} (hju : afterLast (ch '/') job = some ju) (box : Outbox) :
    ∃ feed box', setFed feed job box = .ok none box' ∧ fedOf ju box'.fed ≠ fedOf ju box.fed := by
  obtain ⟨feed, hfeed⟩ := exists_unmarked box.fed
  have hrow : fedRow feed job = .ok ⟨feed, ju⟩ := by
    simp only [fedRow, jobidUniquePathname, hju]
    rfl
  have hno : ∀ r ∈ box.fed.rows, ¬r = ⟨feed, ju⟩ := fun r hr he => hfeed r hr (he ▸ rfl)
  obtain ⟨fed, hfed⟩ : ∃ fed, box.fed.insert ⟨feed, ju⟩ = some fed := by
    rw [Table.insert, dif_pos hno]
    exact ⟨_, rfl⟩
  refine ⟨feed, { box with fed }, ?_, fun h => ?_⟩
  · simp only [setFed, hrow, hfed]
  · have hmem : (⟨feed, ju⟩ : FedRow) ∈ fedOf ju fed := by
      rw [fedOf, (Table.insert_eq_some.1 hfed).2]
      simp
    exact hno _ (List.mem_filter.1 (h ▸ hmem)).1 rfl

/-- A job is isolated from the registered ones if and only if it shares its
    unique part with none of them. -/
theorem isolated_iff (hmd5 : ∀ s, ch '/' ∉ md5 s)
    (hs : (uploadSystem config md5).Reachable System.Always s) :
    Isolated config md5 s box job ↔
      ∀ row ∈ s.tables.jobs.rows, row.dgJobid ≠ job → afterLast (ch '/') job ≠ some row.jobid := by
  have hkept : s.Kept config := .of_reachable hmd5 hs
  constructor
  · intro hiso row hrow hne hju
    obtain ⟨feed, box', hset, hnew⟩ := exists_setFed hju box
    exact hnew (hiso.fed row hrow hne feed none box' hset)
  · intro hno
    refine ⟨fun row hrow hne request s' t t' now hfor hcall hst hexec => ?_,
      fun row hrow hne feed ret box' hset => setFed_frame (hno row hrow hne) hset,
      fun hnew cls name peer p now hcall => ?_⟩
    · have hs' : s'.Kept config := hkept.step hmd5 hcall
      have hspares := spares_of_call hkept hfor (hno row hrow hne) hcall
      obtain ⟨ht, hc⟩ := spares_of_steps hmd5 hs' hspares.1 hspares.2 hst
      have hexec : uploadStep config md5 t (.exec s.calls.length now) = some t' := hexec
      simp only [uploadStep] at hexec
      split at hexec
      · rename_i p hp
        obtain rfl := Option.some.inj hexec
        exact (execStmt_spares ht.tables (hc _ hp)).1
      · cases hexec
    · obtain ⟨ju, hju, h⟩ := Exec.bind_eq_ok.1 hcall
      obtain rfl := Outcome.next.inj (Except.ok.inj h)
      have hnone : s.tables.jobs.rows.find? (·.jobid = ju) = none := by
        rw [List.find?_eq_none]
        intro row hrow he
        refine hno row hrow (hnew row hrow) ?_
        rw [of_decide_eq_true he]
        exact afterLast_of_jobidUniquePathname hju
      simp only [execStmt, hnone]

end Isolation

/-! ## A job nobody registered -/

/-- The sample job as it is registered. -/
def registeredSample : JobRow := { sampleJob with owner := sampleMd5 (ascii "/CN=alice") }

/-- It is the only one. -/
def OnlySample (s : UploadState) : Prop := s.tables.jobs.rows = [registeredSample]

instance : DecidablePred OnlySample := fun _ => inferInstanceAs (Decidable (_ = _))

theorem registerSample_run : ([.call (.registerJob sampleJob.dgJobid (ascii "/CN=alice") 0),
    .exec 0 0, .exec 0 0].foldlM (fun s a =>
      if System.Always s a then uploadStep sampleConfig sampleMd5 s a else none)
    ⟨⟨.empty, .empty, .empty⟩, []⟩).any (OnlySample ·) = true := by
  decide +kernel

/-- A job of another unique part is isolated from the sample job. -/
theorem isolated_iff_sample : ∃ s, OnlySample s ∧
    Isolated sampleConfig sampleMd5 s ⟨[], .empty⟩ (ascii "https://lb/klmnopqrst") := by
  obtain ⟨s, hrun, hs⟩ := Option.any_eq_true _ _ |>.1 registerSample_run
  have hs : OnlySample s := of_decide_eq_true hs
  have hreach : (uploadSystem sampleConfig sampleMd5).Reachable System.Always s :=
    ⟨_, rfl, .of_foldlM (fun _ _ _ h => h) hrun⟩
  refine ⟨s, hs, (isolated_iff sampleMd5_slash hreach).2 fun row hrow _ => ?_⟩
  obtain rfl : row = registeredSample := List.mem_singleton.1 (hs ▸ hrow)
  decide

/-- A job of the same unique part is not: it was not registered, but an upload of
    it is started. -/
theorem not_isolated_sample : ∃ s, (uploadSystem sampleConfig sampleMd5).Reachable System.Always s ∧
    OnlySample s ∧
    ¬Isolated sampleConfig sampleMd5 s ⟨[], .empty⟩ (ascii "https://other/abcdefghij") := by
  obtain ⟨s, hrun, hs⟩ := Option.any_eq_true _ _ |>.1 registerSample_run
  have hs : OnlySample s := of_decide_eq_true hs
  refine ⟨s, ⟨_, rfl, .of_foldlM (fun _ _ _ h => h) hrun⟩, hs, fun hiso => ?_⟩
  have hnew : ∀ row ∈ s.tables.jobs.rows, row.dgJobid ≠ ascii "https://other/abcdefghij" := by
    intro row hrow
    obtain rfl : row = registeredSample := List.mem_singleton.1 (hs ▸ hrow)
    decide
  have hstart := hiso.start hnew (ascii "dump") none none
    (.selectJob (ascii "abcdefghij") (ascii "dump") none (peerName none)) 0 rfl
  have hfind : s.tables.jobs.rows.find? (·.jobid = ascii "abcdefghij") = some registeredSample := by
    rw [show s.tables.jobs.rows = [registeredSample] from hs]
    rfl
  simp only [execStmt, hfind] at hstart
  cases hstart

end JobProvenance
