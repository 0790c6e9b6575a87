import JobProvenance.Primary.Continuous

/-!
# Tagging in bulk

A request can tag several jobs. What it does should be what requests do that give
one tag each: the same tags are recorded, the same jobs are marked as fed, and a job
that a feed matches and has not got yet is sent with all that the feed asks for.

* `recordTags_eq_true`: what tagging one by one leaves behind;
* `matchFeedMulti_eq_ok`: a feed of several jobs, where no mark is ever set;
* `bulkAgrees_iff`: when the two agree.
-/

namespace JobProvenance

section Runs

variable (env : Env) (feeds : List Jpfeed) (ctx : PsContext) (now : ℤ)

/-! ## Two ways to tag -/

/-- A request to give a tag, and what is left of it to be done: whether all is done. -/
def recordTag (job : Bytes) (tag : SoapTag) : Serving Bool := do
  match ← serveRecordTag env ctx now job tag with
  | none => return false
  | some ds => do
    let ds ← runDeferred env feeds now ds
    return ds.isEmpty

/-- Requests to give a tag each. -/
def recordTags : List (Bytes × SoapTag) → Serving Bool
  | [] => return true
  | (job, tag) :: calls => do
    if ← recordTag env feeds ctx now job tag then recordTags calls else return false

/-- A request to give some tags. -/
def recordMultiTags (jobs : List (Bytes × List SoapTag)) : Serving Bool := do
  match ← serveRecordMultiTags env ctx now jobs with
  | none => return false
  | some ds => do
    let ds ← runDeferred env feeds now ds
    return ds.isEmpty

/-- The same tags, one by one. -/
def singleCalls (jobs : List (Bytes × List SoapTag)) : List (Bytes × SoapTag) :=
  jobs.flatMap fun j => j.2.map (j.1, ·)

end Runs

/-! ## Specification -/

section Spec

variable (env : Env) (feeds : List Jpfeed) (ctx : PsContext) (now : ℤ)

/-- What is kept of a tag. -/
def keptTag (tag : SoapTag) : Exec (List Attrval) := do
  let attr ← tagAttrval tag now
  matchAttr [attr]

/-- What is kept of tags of several jobs. -/
def keptJobs (jobs : List (Bytes × List SoapTag)) : Exec (List (Bytes × List Attrval)) := do
  let recorded ← jobs.mapM fun (job, tags) => do
    let attrs ← tags.mapM (tagAttrval · now)
    return (job, attrs)
  matchAttrMulti recorded

/-- The disk when tags have been recorded, one by one. -/
def diskAfter (s : PsState) : Disk → List (Bytes × SoapTag) → Exec Disk
  | disk, [] => .ok disk
  | disk, (job, tag) :: calls => do
    let attr ← tagAttrval tag now
    match ← appendTags env.config s.tables.jobs.rows disk job [attr] with
    | (none, disk) => diskAfter s disk calls
    | (some e, _) => .error (.errno e)

/-- A job is marked as one a feed has got. -/
def Marked (s : PsState) (feed : Jpfeed) (job : Bytes) : Prop :=
  ∃ n, checkFed s.fed feed.id job = .ok n ∧ n ≠ 0

/-- A feed matches a job when one of the tags has been recorded. -/
def MatchedBySingle (s : PsState) (calls : List (Bytes × SoapTag)) (feed : Jpfeed) (job : Bytes) :
    Prop :=
  ∃ before tag after disk attrs, calls = before ++ (job, tag) :: after ∧
    diskAfter env now s s.disk (before ++ [(job, tag)]) = .ok disk ∧ keptTag now tag = .ok attrs ∧
    Feeds env { s with disk } job attrs feed

/-- Whether a feed asks for something that arrived of one of some jobs. -/
def asksForAny (names : List Bytes) (jobs : List (Bytes × List Attrval)) : Bool :=
  names.any fun name => jobs.any fun j => j.2.any (·.name = name)

/-- A feed matches one of the jobs when all of the tags have been recorded. -/
def MatchedByBulk (s : PsState) (jobs : List (Bytes × List SoapTag)) (feed : Jpfeed) (job : Bytes) :
    Prop :=
  ∃ kept disk attrs, keptJobs now jobs = .ok kept ∧
    diskAfter env now s s.disk (singleCalls jobs) = .ok disk ∧ asksForAny feed.attrs kept = true ∧
    (job, attrs) ∈ kept ∧ isFeedMatching (getAttrs env { s with disk }) feed job attrs = .ok true

/-- A record has all that a feed asks for of a job, when some of the tags were recorded. -/
def FullRecord (s : PsState) (calls : List (Bytes × SoapTag)) (feed : Jpfeed) (job : Bytes)
    (r : JobRecord) : Prop :=
  ∃ n disk a owner, diskAfter env now s s.disk (calls.take n) = .ok disk ∧
    fullFeed (getAttrs env { s with disk }) feed job = .ok a ∧ jobRecord job owner a = .ok r

/-- A job is sent to a feed with all it asks for. -/
def SentInFull (s : PsState) (calls : List (Bytes × SoapTag)) (feed : Jpfeed) (job : Bytes)
    (s' : PsState) : Prop :=
  ∃ m ∈ s'.sent.drop s.sent.length, m.destination = feed.destination ∧ m.msg.feedId = feed.id ∧
    ∃ r ∈ m.msg.jobAttributes, FullRecord env now s calls feed job r

/-- Tagging in bulk does what tagging one by one has done. -/
def BulkAgrees (jobs : List (Bytes × List SoapTag)) (s s₁ : PsState) : Prop :=
  ∃ s₂, recordMultiTags env feeds ctx now jobs s = .ok true s₂ ∧
    s₂.disk = s₁.disk ∧ s₂.fed = s₁.fed ∧
    ∀ f ∈ feeds, ∀ job,
      MatchedBySingle env now s (singleCalls jobs) f job ∨ MatchedByBulk env now s jobs f job →
      ¬Marked s f job →
        SentInFull env now s (singleCalls jobs) f job s₁ ∧
          SentInFull env now s (singleCalls jobs) f job s₂

/-- A feed does not match a job, or it has got it and can be sent its tags. -/
def Updates (s : PsState) (feed : Jpfeed) (j : Bytes × List Attrval) : Prop :=
  isFeedMatching (getAttrs env s) feed j.1 j.2 = .ok false ∨
    isFeedMatching (getAttrs env s) feed j.1 j.2 = .ok true ∧ Marked s feed j.1 ∧
      ∃ owner r, ownerOf s j.1 = .ok (some owner) ∧ jobRecord j.1 owner j.2 = .ok r

/-- There are tags, of each of the jobs, and no feed matches a job it has not got yet. -/
structure OnlyUpdates (jobs : List (Bytes × List SoapTag)) (s : PsState) : Prop where
  jobs_ne : jobs ≠ []
  tags_ne : ∀ j ∈ jobs, j.2 ≠ []
  single : ∀ f ∈ feeds, ∀ job, MatchedBySingle env now s (singleCalls jobs) f job → Marked s f job
  bulk : ∀ kept disk, keptJobs now jobs = .ok kept →
    diskAfter env now s s.disk (singleCalls jobs) = .ok disk →
      ∀ f ∈ feeds, asksForAny f.attrs kept = true → ∀ j ∈ kept, Updates env { s with disk } f j

end Spec

/-! ## Recording -/

section Recording

variable {env : Env} {feeds : List Jpfeed} {ctx : PsContext} {now : ℤ} {s s' : PsState}
  {disk disk' : Disk} {job : Bytes} {tag : SoapTag} {tags : List SoapTag}
  {calls calls' : List (Bytes × SoapTag)} {jobs : List (Bytes × List SoapTag)}

theorem diskAfter_cons_eq_ok : diskAfter env now s disk ((job, tag) :: calls) = .ok disk' ↔
    ∃ attr disk₁, tagAttrval tag now = .ok attr ∧
      appendTags env.config s.tables.jobs.rows disk job [attr] = .ok (none, disk₁) ∧
      diskAfter env now s disk₁ calls = .ok disk' := by
  rw [diskAfter, Exec.bind_eq_ok]
  refine exists_congr fun attr => ?_
  constructor
  · rintro ⟨hattr, h⟩
    obtain ⟨⟨ret, disk₁⟩, happ, h⟩ := Exec.bind_eq_ok.1 h
    cases ret with
    | none => exact ⟨disk₁, hattr, happ, h⟩
    | some e => cases h
  · rintro ⟨disk₁, hattr, happ, h⟩
    exact ⟨hattr, by rw [happ]; exact h⟩

theorem diskAfter_congr (h : s'.tables = s.tables) :
    diskAfter env now s' disk calls = diskAfter env now s disk calls := by
  induction calls generalizing disk with
  | nil => rfl
  | cons call calls ih => simp only [diskAfter, h, ih]

theorem diskAfter_append : diskAfter env now s disk (calls ++ calls') = .ok disk' ↔
    ∃ disk₁, diskAfter env now s disk calls = .ok disk₁ ∧
      diskAfter env now s disk₁ calls' = .ok disk' := by
  induction calls generalizing disk with
  | nil => simp [diskAfter]
  | cons call calls ih =>
    obtain ⟨job, tag⟩ := call
    simp only [List.cons_append, diskAfter_cons_eq_ok, ih]
    constructor
    · rintro ⟨attr, disk₁, hattr, happ, disk₂, h, h'⟩
      exact ⟨disk₂, ⟨attr, disk₁, hattr, happ, h⟩, h'⟩
    · rintro ⟨disk₂, ⟨attr, disk₁, hattr, happ, h⟩, h'⟩
      exact ⟨attr, disk₁, hattr, happ, disk₂, h, h'⟩

/-- The tags of a job are appended at once as they are one by one. -/
theorem appendTags_of_diskAfter (hne : tags ≠ [])
    (h : diskAfter env now s disk (tags.map (job, ·)) = .ok disk') :
    ∃ attrs, tags.mapM (tagAttrval · now) = .ok attrs ∧
      appendTags env.config s.tables.jobs.rows disk job attrs = .ok (none, disk') := by
  induction tags generalizing disk with
  | nil => exact absurd rfl hne
  | cons tag tags ih =>
    obtain ⟨attr, disk₁, hattr, happ, h⟩ := diskAfter_cons_eq_ok.1 h
    rcases eq_or_ne tags [] with rfl | hne
    · obtain rfl := Except.ok.inj h
      exact ⟨[attr], Exec.mapM_eq_ok.2 (.cons hattr .nil), happ⟩
    · obtain ⟨attrs, hattrs, happs⟩ := ih hne h
      exact ⟨attr :: attrs, Exec.mapM_eq_ok.2 (.cons hattr (Exec.mapM_eq_ok.1 hattrs)),
        appendTags_cons happ happs⟩

/-- The tags of jobs are recorded as they are one by one, when there are some of each job,
    and the client may give them. -/
theorem recordJobs_of_diskAfter (hne : ∀ j ∈ jobs, j.2 ≠ [])
    (hown : ∀ j ∈ jobs, ∃ owner, taggedOwner ctx s j.1 = .ok (some owner))
    (h : diskAfter env now s s.disk (singleCalls jobs) = .ok disk) : ∃ recorded,
      (jobs.mapM fun (job, tags) => do
        let attrs ← tags.mapM (tagAttrval · now)
        return (job, attrs)) = .ok recorded ∧
      recordJobs env ctx now jobs s = .ok (some recorded) { s with disk } := by
  induction jobs generalizing s with
  | nil =>
    obtain rfl := Except.ok.inj h
    exact ⟨[], rfl, rfl⟩
  | cons j jobs ih =>
    obtain ⟨job, tags⟩ := j
    rw [List.forall_mem_cons] at hne hown
    rw [singleCalls, List.flatMap_cons, diskAfter_append] at h
    obtain ⟨disk₁, hjob, h⟩ := h
    obtain ⟨attrs, hattrs, happ⟩ := appendTags_of_diskAfter hne.1 hjob
    obtain ⟨owner, howner⟩ := hown.1
    -- the rest is recorded on the disk with the tags of this job
    have hcalls : diskAfter env now { s with disk := disk₁ } disk₁ (singleCalls jobs) = .ok disk := by
      have htables : ({ s with disk := disk₁ } : PsState).tables = s.tables := rfl
      rw [diskAfter_congr htables]
      exact h
    obtain ⟨recorded, hrec, hrest⟩ := @ih { s with disk := disk₁ } hne.2 hown.2 hcalls
    refine ⟨(job, attrs) :: recorded, ?_, ?_⟩
    · exact Exec.mapM_eq_ok.2 (.cons (Exec.bind_eq_ok.2 ⟨attrs, hattrs, rfl⟩)
        (Exec.mapM_eq_ok.1 hrec))
    · exact recordJobs_cons_eq_some.2
        ⟨owner, attrs, disk₁, recorded, howner, hattrs, happ, hrest, rfl⟩

end Recording

/-! ## One by one -/

section Single

variable {env : Env} {feeds : List Jpfeed} {ctx : PsContext} {now : ℤ} {s s' : PsState}
  {feed : Jpfeed} {job : Bytes} {tag : SoapTag} {attrs : List Attrval}
  {calls : List (Bytes × SoapTag)}

theorem matchFeed_frame (h : matchFeed env feed job attrs s = .ok () s') :
    s' = { s with toOutbox := s'.toOutbox } ∧
      ((isFeedMatching (getAttrs env s) feed job attrs = .ok true → Marked s feed job) →
        s'.fed = s.fed) := by
  obtain ⟨msgs, hm⟩ := matchFeed_eq_ok h
  refine ⟨hm.state_eq, fun hmark => ?_⟩
  obtain ⟨-, rfl⟩ | ⟨hb, fed, msgs, hfed, ⟨h0, -⟩ | ⟨-, hagain⟩⟩ := matchFeed_cases h
  · rfl
  · -- a job that is not marked is not matched
    obtain ⟨n, hn, hne⟩ := hmark hb
    exact absurd (Except.ok.inj (hfed.symm.trans hn) ▸ h0) hne
  · obtain ⟨owner, jr, ret, box, -, -, hatt, rfl⟩ := hagain
    change box.fed = s.fed
    rw [hatt.box_eq]

/-- Matching changes marks only of jobs that are not marked. -/
theorem matchAttrDeferred_frame (h : matchAttrDeferred env feeds job attrs s = .ok () s') :
    s' = { s with toOutbox := s'.toOutbox } ∧ (∀ f ∈ feeds, f.attrs ≠ []) ∧
      ((∀ f ∈ feeds, Feeds env s job attrs f → Marked s f job) → s'.fed = s.fed) := by
  unfold matchAttrDeferred at h
  induction feeds generalizing s with
  | nil =>
    obtain ⟨-, rfl⟩ := Stateful.pure_eq_ok.1 h
    exact ⟨rfl, by simp, fun _ => rfl⟩
  | cons f feeds ih =>
    obtain ⟨⟨⟩, t, ht, hrest⟩ := Stateful.bind_eq_ok.1 h
    obtain ⟨names, t', hn, ht⟩ := Stateful.bind_eq_ok.1 ht
    obtain ⟨hnames, rfl⟩ := Stateful.liftM_eq_ok.1 hn
    obtain ⟨hne, rfl⟩ := elements_eq_ok.1 hnames
    obtain ⟨hstate, hall, hfed⟩ := ih hrest
    split_ifs at ht with hasks
    · obtain ⟨ht', hkeep⟩ := matchFeed_frame ht
      refine ⟨by rw [hstate, ht'], List.forall_mem_cons.2 ⟨hne, hall⟩, fun hmark => ?_⟩
      rw [List.forall_mem_cons] at hmark
      have htfed : t.fed = s.fed := hkeep fun hb => hmark.1 ⟨hasks, hb⟩
      -- the next feeds find the same values and the same marks
      have hget : getAttrs env t = getAttrs env s := by rw [ht']; rfl
      rw [hfed fun g hg hf => ?_, htfed]
      obtain ⟨n, hn, hne⟩ := hmark.2 g hg ⟨hf.1, hget ▸ hf.2⟩
      exact ⟨n, by rw [htfed]; exact hn, hne⟩
    · obtain ⟨-, rfl⟩ := Stateful.pure_eq_ok.1 ht
      exact ⟨hstate, List.forall_mem_cons.2 ⟨hne, hall⟩,
        fun hmark => hfed (List.forall_mem_cons.1 hmark).2⟩

theorem runDeferred_matchAttr (h : runDeferred env feeds now [.matchAttr job attrs] s = .ok [] s') :
    matchAttrDeferred env feeds job attrs s = .ok () s' := by
  obtain ⟨ret, t, ht, h⟩ := Stateful.bind_eq_ok.1 h
  obtain ⟨⟨⟩, t', hm, ht⟩ := Stateful.bind_eq_ok.1 ht
  obtain ⟨rfl, rfl⟩ := Stateful.pure_eq_ok.1 ht
  obtain ⟨-, rfl⟩ := Stateful.pure_eq_ok.1 h
  exact hm

theorem recordTag_eq_true (h : recordTag env feeds ctx now job tag s = .ok true s') :
    ∃ owner attr disk attrs, taggedOwner ctx s job = .ok (some owner) ∧
      tagAttrval tag now = .ok attr ∧
      appendTags env.config s.tables.jobs.rows s.disk job [attr] = .ok (none, disk) ∧
      matchAttr [attr] = .ok attrs ∧
      matchAttrDeferred env feeds job attrs { s with disk } = .ok () s' := by
  obtain ⟨ds, t, ht, h⟩ := Stateful.bind_eq_ok.1 h
  cases ds with
  | none =>
    obtain ⟨hd, -⟩ := Stateful.pure_eq_ok.1 h
    cases hd
  | some ds =>
    obtain ⟨owner, attr, disk, attrs, ho, hattr, happ, hattrs, rfl, rfl⟩ := serveRecordTag_eq_some ht
    obtain ⟨left, t', ht', h⟩ := Stateful.bind_eq_ok.1 h
    obtain ⟨hleft, rfl⟩ := Stateful.pure_eq_ok.1 h
    rw [List.isEmpty_iff.1 hleft] at ht'
    exact ⟨owner, attr, disk, attrs, ho, hattr, happ, hattrs, runDeferred_matchAttr ht'⟩

/-- Tags are given one by one: the disk, and that no marks change unless a job that has
    none is matched. -/
theorem recordTags_eq_true (h : recordTags env feeds ctx now calls s = .ok true s') :
    ∃ disk, diskAfter env now s s.disk calls = .ok disk ∧
      s' = { s with toOutbox := s'.toOutbox, disk } ∧
      (∀ c ∈ calls, (∃ owner, taggedOwner ctx s c.1 = .ok (some owner)) ∧
        (∃ attrs, keptTag now c.2 = .ok attrs) ∧ ∀ f ∈ feeds, f.attrs ≠ []) ∧
      ((∀ f ∈ feeds, ∀ job, MatchedBySingle env now s calls f job → Marked s f job) →
        s'.fed = s.fed) := by
  induction calls generalizing s with
  | nil =>
    obtain ⟨-, rfl⟩ := Stateful.pure_eq_ok.1 h
    exact ⟨s.disk, rfl, rfl, by simp, fun _ => rfl⟩
  | cons c calls ih =>
    obtain ⟨job, tag⟩ := c
    obtain ⟨done, t, ht, h⟩ := Stateful.bind_eq_ok.1 h
    cases done with
    | false =>
      obtain ⟨hd, -⟩ := Stateful.pure_eq_ok.1 h
      cases hd
    | true =>
      obtain ⟨owner, attr, disk₁, attrs, ho, hattr, happ, hattrs, hmatch⟩ := recordTag_eq_true ht
      obtain ⟨ht', hne, hfed₁⟩ := matchAttrDeferred_frame hmatch
      obtain ⟨disk, hdisk, hstate, hcalls, hfed⟩ := ih h
      have htables : t.tables = s.tables := by rw [ht']
      have htdisk : t.disk = disk₁ := by rw [ht']
      rw [diskAfter_congr htables, htdisk] at hdisk
      refine ⟨disk, diskAfter_cons_eq_ok.2 ⟨attr, disk₁, hattr, happ, hdisk⟩, ?_, ?_, fun hmark => ?_⟩
      · rw [hstate, ht']
      · have howner : taggedOwner ctx t = taggedOwner ctx s := by rw [ht']; rfl
        rw [howner] at hcalls
        exact List.forall_mem_cons.2 ⟨⟨⟨owner, ho⟩, ⟨attrs, Exec.bind_eq_ok.2 ⟨attr, hattr, hattrs⟩⟩,
          hne⟩, hcalls⟩
      · have hhead : t.fed = s.fed := by
          refine hfed₁ fun f hf hfeeds => hmark f hf job ?_
          exact ⟨[], tag, calls, disk₁, attrs, rfl,
            diskAfter_cons_eq_ok.2 ⟨attr, disk₁, hattr, happ, rfl⟩,
            Exec.bind_eq_ok.2 ⟨attr, hattr, hattrs⟩, hfeeds⟩
        rw [← hhead]
        refine hfed fun f hf job' hsingle => ?_
        -- what is matched later is matched when this tag was recorded first
        obtain ⟨before, tag', after, disk', attrs', rfl, hd, hkept, hfeeds⟩ := hsingle
        rw [diskAfter_congr htables, htdisk] at hd
        obtain ⟨n, hn, hne'⟩ := hmark f hf job' ⟨(job, tag) :: before, tag', after, disk', attrs', rfl,
          diskAfter_cons_eq_ok.2 ⟨attr, disk₁, hattr, happ, hd⟩, hkept,
          by rw [ht'] at hfeeds; exact hfeeds⟩
        exact ⟨n, by rw [hhead]; exact hn, hne'⟩

end Single

/-! ## In bulk -/

section Multi

variable {env : Env} {feeds : List Jpfeed} {ctx : PsContext} {now : ℤ} {s s' : PsState}
  {feed : Jpfeed} {jobs : List (Bytes × List Attrval)} {matched : List MatchedJob}

/-- A job that is to be sent to a feed in bulk. -/
structure IsMatched (env : Env) (s : PsState) (feed : Jpfeed) (j : Bytes × List Attrval)
    (m : MatchedJob) : Prop where
  matching : isFeedMatching (getAttrs env s) feed j.1 j.2 = .ok true
  job : m.job = j.1
  attrs : m.attrs = j.2
  fed : m.fed = (checkFed s.fed feed.id j.1).toOption
  owner : ownerOf s j.1 = .ok (some m.owner)

theorem matchedJobs_eq_ok (h : matchedJobs env s feed jobs = .ok matched) :
    (∀ j ∈ jobs, isFeedMatching (getAttrs env s) feed j.1 j.2 = .ok false ∨
      ∃ m ∈ matched, IsMatched env s feed j m) ∧
      ∀ m ∈ matched, ∃ j ∈ jobs, IsMatched env s feed j m := by
  induction jobs generalizing matched with
  | nil =>
    obtain rfl := Except.ok.inj h
    simp
  | cons j jobs ih =>
    obtain ⟨job, attrs⟩ := j
    obtain ⟨b, hb, h⟩ := Exec.bind_eq_ok.1 h
    cases b with
    | false =>
      obtain ⟨hjobs, hmatched⟩ := ih h
      refine ⟨List.forall_mem_cons.2 ⟨.inl hb, hjobs⟩, fun m hm => ?_⟩
      obtain ⟨j, hj, hjm⟩ := hmatched m hm
      exact ⟨j, List.mem_cons_of_mem _ hj, hjm⟩
    | true =>
      obtain ⟨owner?, howner, h⟩ := Exec.bind_eq_ok.1 h
      obtain ⟨owner, hderef, h⟩ := Exec.bind_eq_ok.1 h
      obtain ⟨rest, hrest, h⟩ := Exec.bind_eq_ok.1 h
      obtain rfl := Except.ok.inj h
      obtain rfl := Exec.deref_eq_ok.1 hderef
      obtain ⟨hjobs, hmatched⟩ := ih hrest
      have hself : IsMatched env s feed (job, attrs)
          ⟨job, owner, attrs, (checkFed s.fed feed.id job).toOption⟩ := ⟨hb, rfl, rfl, rfl, howner⟩
      refine ⟨List.forall_mem_cons.2 ⟨.inr ⟨_, List.mem_cons_self, hself⟩, fun j hj => ?_⟩,
        List.forall_mem_cons.2 ⟨⟨_, List.mem_cons_self, hself⟩, fun m hm => ?_⟩⟩
      · exact (hjobs j hj).imp_right fun ⟨m, hm, hjm⟩ => ⟨m, List.mem_cons_of_mem _ hm, hjm⟩
      · obtain ⟨j, hj, hjm⟩ := hmatched m hm
        exact ⟨j, List.mem_cons_of_mem _ hj, hjm⟩

theorem exists_matchedJobs (h : ∀ j ∈ jobs, isFeedMatching (getAttrs env s) feed j.1 j.2 = .ok false ∨
    isFeedMatching (getAttrs env s) feed j.1 j.2 = .ok true ∧ ∃ owner, ownerOf s j.1 = .ok (some owner)) :
    ∃ matched, matchedJobs env s feed jobs = .ok matched := by
  induction jobs with
  | nil => exact ⟨[], rfl⟩
  | cons j jobs ih =>
    obtain ⟨job, attrs⟩ := j
    rw [List.forall_mem_cons] at h
    obtain ⟨matched, hm⟩ := ih h.2
    rcases h.1 with hb | ⟨hb, owner, howner⟩
    · exact ⟨matched, Exec.bind_eq_ok.2 ⟨false, hb, hm⟩⟩
    · exact ⟨_, Exec.bind_eq_ok.2 ⟨true, hb, Exec.bind_eq_ok.2 ⟨some owner, howner,
        Exec.bind_eq_ok.2 ⟨owner, rfl, Exec.bind_eq_ok.2 ⟨matched, hm, rfl⟩⟩⟩⟩⟩

/-- The records of the jobs that are to be sent. -/
theorem jobRecords_matched (matched : List MatchedJob) :
    jobRecords matched.length (matched.map (·.job)) (matched.map (·.owner)) (matched.map (·.attrs)) =
      matched.mapM fun m => jobRecord m.job m.owner m.attrs := by
  refine Exec.mapM_range fun i hi => ?_
  simp only [List.getElem?_map, List.getElem?_eq_getElem hi, Option.map_some, Exec.deref, Exec.ok_bind]

/-- Marking a job that is marked changes nothing. -/
theorem setFed_of_marked {job : Bytes} (h : Marked s feed job) :
    setFed feed.id job s.toOutbox = .ok (some Errno.EIO) s.toOutbox := by
  obtain ⟨n, hn, hne⟩ := h
  obtain ⟨row, hrow, hcount⟩ := Exec.bind_eq_ok.1 hn
  have hmem : row ∈ s.fed.rows := by
    obtain ⟨r, hr, hp⟩ := List.countP_pos_iff.1 (Nat.pos_of_ne_zero (Except.ok.inj hcount ▸ hne))
    exact of_decide_eq_true hp ▸ hr
  have hins : s.fed.insert row = none := by
    rw [Option.eq_none_iff_forall_ne_some]
    exact fun fed hfed => (Table.insert_eq_some.1 hfed).1 row hmem rfl
  rw [setFed, hrow]
  dsimp only
  rw [hins]

/-- What is done for a job that was sent in bulk. -/
def markAgain (feed : Jpfeed) (m : MatchedJob) : Serving Unit := do
  let fed ← Exec.deref m.fed
  if fed ≠ 0 then
    let _ ← setFed feed.id m.job

/-- The marks do not change: only jobs that are marked are marked. -/
theorem markAgain_eq_ok {m : MatchedJob} (hm : m.fed = (checkFed s.fed feed.id m.job).toOption) :
    markAgain feed m s = .ok () s' ↔ s' = s ∧ ∃ n, checkFed s.fed feed.id m.job = .ok n := by
  constructor
  · intro h
    obtain ⟨n, t, ht, h⟩ := Stateful.bind_eq_ok.1 h
    obtain ⟨hn, rfl⟩ := Stateful.liftM_eq_ok.1 ht
    rw [hm, Exec.deref_eq_ok] at hn
    have hcheck : checkFed s.fed feed.id m.job = .ok n := by
      cases hc : checkFed s.fed feed.id m.job with
      | ok k =>
        rw [hc] at hn
        exact congrArg _ (Option.some.inj hn)
      | error e =>
        rw [hc] at hn
        cases hn
    refine ⟨?_, n, hcheck⟩
    split_ifs at h with h0
    · obtain ⟨r, t, ht, hend⟩ := Stateful.bind_eq_ok.1 h
      obtain ⟨box, hbox, rfl⟩ := sending_eq_ok.1 ht
      rw [setFed_of_marked ⟨n, hcheck, h0⟩] at hbox
      obtain ⟨-, rfl⟩ := EStateM.Result.ok.inj hbox
      exact (Stateful.pure_eq_ok.1 hend).2.symm
    · exact (Stateful.pure_eq_ok.1 h).2.symm
  · rintro ⟨rfl, n, hn⟩
    refine Stateful.bind_eq_ok.2 ⟨n, s', Stateful.liftM_eq_ok.2 ⟨?_, rfl⟩, ?_⟩
    · rw [hm, hn]
      rfl
    · split_ifs with h0
      · exact Stateful.bind_eq_ok.2
          ⟨_, s', sending_eq_ok.2 ⟨_, setFed_of_marked ⟨n, hn, h0⟩, rfl⟩, rfl⟩
      · rfl

theorem forM_markAgain_eq_ok (hm : ∀ m ∈ matched, m.fed = (checkFed s.fed feed.id m.job).toOption) :
    matched.forM (markAgain feed) s = .ok () s' ↔
      s' = s ∧ ∀ m ∈ matched, ∃ n, checkFed s.fed feed.id m.job = .ok n := by
  induction matched with
  | nil =>
    refine Stateful.pure_eq_ok.trans ?_
    simp [eq_comm]
  | cons m matched ih =>
    rw [List.forall_mem_cons] at hm ⊢
    refine Stateful.bind_eq_ok.trans ?_
    constructor
    · rintro ⟨⟨⟩, t, ht, h⟩
      obtain ⟨rfl, hn⟩ := (markAgain_eq_ok hm.1).1 ht
      obtain ⟨rfl, hrest⟩ := (ih hm.2).1 h
      exact ⟨rfl, hn, hrest⟩
    · rintro ⟨rfl, hn, hrest⟩
      exact ⟨(), s', (markAgain_eq_ok hm.1).2 ⟨rfl, hn⟩, (ih hm.2).2 ⟨rfl, hrest⟩⟩

/-- The state behind a message. -/
def pushed (env : Env) (feed : Jpfeed) (records : List JobRecord) (s : PsState) : PsState :=
  { s with toOutbox := s.toOutbox.push env.answers feed.destination ⟨feed.id, false, records⟩ }

/-- Jobs are fed in bulk when they are compared without a fault, those that match have owners
    and can be sent, and their marks are known: in one message, and the marks stay. -/
theorem matchFeedMulti_eq_ok : matchFeedMulti env feed jobs s = .ok () s' ↔
    ∃ matched records, matchedJobs env s feed jobs = .ok matched ∧
      (matched.mapM fun m => jobRecord m.job m.owner m.attrs) = .ok records ∧
      (∀ m ∈ matched, ∃ n, checkFed s.fed feed.id m.job = .ok n) ∧
      s' = pushed env feed records s := by
  have hmarks : ∀ {matched : List MatchedJob} (records : List JobRecord),
      matchedJobs env s feed jobs = .ok matched →
        ∀ m ∈ matched, m.fed = (checkFed (pushed env feed records s).fed feed.id m.job).toOption := by
    intro matched records hm m hmem
    obtain ⟨j, -, hj⟩ := (matchedJobs_eq_ok hm).2 m hmem
    rw [hj.fed, hj.job]
    rfl
  constructor
  · intro h
    obtain ⟨t, t', ht, h⟩ := Stateful.bind_eq_ok.1 h
    obtain ⟨rfl, rfl⟩ := EStateM.Result.ok.inj ht
    obtain ⟨matched, t', ht, h⟩ := Stateful.bind_eq_ok.1 h
    obtain ⟨hm, rfl⟩ := Stateful.liftM_eq_ok.1 ht
    obtain ⟨ret, t', ht, h⟩ := Stateful.bind_eq_ok.1 h
    obtain ⟨box, hbox, rfl⟩ := sending_eq_ok.1 ht
    obtain ⟨rfl, records, hrec, rfl⟩ := multiFeed_eq_ok.1 hbox
    rw [jobRecords_matched] at hrec
    rw [if_pos rfl] at h
    obtain ⟨rfl, hn⟩ := (forM_markAgain_eq_ok (hmarks records hm)).1 h
    exact ⟨matched, records, hm, hrec, hn, rfl⟩
  · rintro ⟨matched, records, hm, hrec, hn, rfl⟩
    rw [← jobRecords_matched] at hrec
    refine Stateful.bind_eq_ok.2 ⟨s, s, rfl, Stateful.bind_eq_ok.2 ⟨matched, s,
      Stateful.liftM_eq_ok.2 ⟨hm, rfl⟩, Stateful.bind_eq_ok.2 ⟨none, pushed env feed records s,
        sending_eq_ok.2 ⟨_, multiFeed_of_ok hrec, rfl⟩, ?_⟩⟩⟩
    exact (forM_markAgain_eq_ok (hmarks records hm)).2 ⟨rfl, hn⟩

/-- A feed does not match a job, or the job can be sent to it. -/
def Sendable (env : Env) (s : PsState) (feed : Jpfeed) (j : Bytes × List Attrval) : Prop :=
  isFeedMatching (getAttrs env s) feed j.1 j.2 = .ok false ∨
    isFeedMatching (getAttrs env s) feed j.1 j.2 = .ok true ∧
      (∃ n, checkFed s.fed feed.id j.1 = .ok n) ∧
        ∃ owner r, ownerOf s j.1 = .ok (some owner) ∧ jobRecord j.1 owner j.2 = .ok r

theorem Updates.sendable {j : Bytes × List Attrval} (h : Updates env s feed j) :
    Sendable env s feed j :=
  h.imp_right fun ⟨hb, ⟨n, hn, _⟩, hr⟩ => ⟨hb, ⟨n, hn⟩, hr⟩

theorem sendable_of_matchFeedMulti (h : matchFeedMulti env feed jobs s = .ok () s') :
    ∃ records, s' = pushed env feed records s ∧ (∀ j ∈ jobs, Sendable env s feed j) ∧
      ∀ r ∈ records, ∃ j ∈ jobs, ∃ owner, jobRecord j.1 owner j.2 = .ok r := by
  obtain ⟨matched, records, hm, hrec, hn, rfl⟩ := matchFeedMulti_eq_ok.1 h
  obtain ⟨hjobs, hmatched⟩ := matchedJobs_eq_ok hm
  obtain ⟨hsent, hfrom⟩ := Exec.mem_of_mapM hrec
  refine ⟨records, rfl, fun j hj => ?_, fun r hr => ?_⟩
  · refine (hjobs j hj).imp_right fun ⟨m, hmem, hjm⟩ => ?_
    obtain ⟨r, -, hr⟩ := hsent m hmem
    rw [hjm.job, hjm.attrs] at hr
    exact ⟨hjm.matching, hjm.job ▸ hn m hmem, m.owner, r, hjm.owner, hr⟩
  · obtain ⟨m, hmem, hmr⟩ := hfrom r hr
    obtain ⟨j, hj, hjm⟩ := hmatched m hmem
    rw [hjm.job, hjm.attrs] at hmr
    exact ⟨j, hj, m.owner, hmr⟩

theorem exists_matchFeedMulti (h : ∀ j ∈ jobs, Sendable env s feed j) :
    ∃ records, matchFeedMulti env feed jobs s = .ok () (pushed env feed records s) := by
  obtain ⟨matched, hm⟩ := exists_matchedJobs fun j hj =>
    (h j hj).imp_right fun ⟨hb, _, owner, _, howner, _⟩ => ⟨hb, owner, howner⟩
  obtain ⟨hjobs, hmatched⟩ := matchedJobs_eq_ok hm
  -- what is sent of a job that matches
  have hsend : ∀ m ∈ matched, (∃ n, checkFed s.fed feed.id m.job = .ok n) ∧
      ∃ r, jobRecord m.job m.owner m.attrs = .ok r := by
    intro m hmem
    obtain ⟨j, hj, hjm⟩ := hmatched m hmem
    rcases h j hj with hb | ⟨-, hn, owner, r, howner, hr⟩
    · cases hb.symm.trans hjm.matching
    · obtain rfl := Option.some.inj (Except.ok.inj (howner.symm.trans hjm.owner))
      rw [hjm.job, hjm.attrs]
      exact ⟨hn, r, hr⟩
  obtain ⟨records, hrec⟩ := Exec.exists_mapM fun m hmem => (hsend m hmem).2
  exact ⟨records, matchFeedMulti_eq_ok.2 ⟨matched, records, hm, hrec, fun m hmem => (hsend m hmem).1, rfl⟩⟩

/-- The jobs go to the feeds that ask for some of what arrived; the marks stay. -/
theorem matchAttrMultiDeferred_eq_ok (h : matchAttrMultiDeferred env feeds jobs s = .ok () s') :
    s' = { s with toOutbox := ⟨s'.sent, s.fed⟩ } ∧
      (∃ msgs, s'.sent = s.sent ++ msgs ∧ ∀ m ∈ msgs, ∀ r ∈ m.msg.jobAttributes,
        ∃ j ∈ jobs, ∃ owner, jobRecord j.1 owner j.2 = .ok r) ∧
      ∀ f ∈ feeds, asksForAny f.attrs jobs = true → ∀ j ∈ jobs, Sendable env s f j := by
  unfold matchAttrMultiDeferred at h
  induction feeds generalizing s with
  | nil =>
    obtain ⟨-, rfl⟩ := Stateful.pure_eq_ok.1 h
    exact ⟨rfl, ⟨[], (List.append_nil _).symm, by simp⟩, by simp⟩
  | cons f feeds ih =>
    obtain ⟨⟨⟩, t, ht, hrest⟩ := Stateful.bind_eq_ok.1 h
    obtain ⟨names, t', hn, ht⟩ := Stateful.bind_eq_ok.1 ht
    obtain ⟨hnames, rfl⟩ := Stateful.liftM_eq_ok.1 hn
    obtain ⟨-, rfl⟩ := elements_eq_ok.1 hnames
    obtain ⟨hstate, ⟨msgs, hsent, hmsgs⟩, hfeeds⟩ := ih hrest
    split_ifs at ht with hasks
    · obtain ⟨records, rfl, hf, hrec⟩ := sendable_of_matchFeedMulti ht
      refine ⟨hstate, ⟨_, hsent.trans (List.append_assoc ..), ?_⟩,
        List.forall_mem_cons.2 ⟨fun _ => hf, hfeeds⟩⟩
      exact List.forall_mem_cons.2 ⟨hrec, hmsgs⟩
    · obtain ⟨-, rfl⟩ := Stateful.pure_eq_ok.1 ht
      exact ⟨hstate, ⟨msgs, hsent, hmsgs⟩,
        List.forall_mem_cons.2 ⟨fun hask => absurd hask hasks, hfeeds⟩⟩

theorem exists_matchAttrMultiDeferred (hne : ∀ f ∈ feeds, f.attrs ≠ [])
    (h : ∀ f ∈ feeds, asksForAny f.attrs jobs = true → ∀ j ∈ jobs, Sendable env s f j) :
    ∃ s', matchAttrMultiDeferred env feeds jobs s = .ok () s' := by
  unfold matchAttrMultiDeferred
  induction feeds generalizing s with
  | nil => exact ⟨s, rfl⟩
  | cons f feeds ih =>
    rw [List.forall_mem_cons] at hne h
    have hnames : elements f.attrs = .ok f.attrs := elements_eq_ok.2 ⟨hne.1, rfl⟩
    by_cases hasks : asksForAny f.attrs jobs = true
    · obtain ⟨records, hf⟩ := exists_matchFeedMulti (h.1 hasks)
      obtain ⟨s', hs'⟩ := @ih (pushed env f records s) hne.2 h.2
      refine ⟨s', Stateful.bind_eq_ok.2 ⟨(), _, Stateful.bind_eq_ok.2 ⟨f.attrs, s,
        Stateful.liftM_eq_ok.2 ⟨hnames, rfl⟩, ?_⟩, hs'⟩⟩
      exact (congrFun (if_pos hasks) s).trans hf
    · obtain ⟨s', hs'⟩ := @ih s hne.2 h.2
      refine ⟨s', Stateful.bind_eq_ok.2 ⟨(), _, Stateful.bind_eq_ok.2 ⟨f.attrs, s,
        Stateful.liftM_eq_ok.2 ⟨hnames, rfl⟩, ?_⟩, hs'⟩⟩
      exact congrFun (if_neg hasks) s

end Multi

/-! ## Two runs -/

section Agree

variable {env : Env} {feeds : List Jpfeed} {ctx : PsContext} {now : ℤ} {s s' s₁ s₂ t : PsState}
  {jobs : List (Bytes × List SoapTag)} {recorded kept : List (Bytes × List Attrval)}

/-- What is recorded are the tags of the request. -/
theorem recordJobs_eq_some (h : recordJobs env ctx now jobs s = .ok (some recorded) t) :
    (jobs.mapM fun (job, tags) => do
      let attrs ← tags.mapM (tagAttrval · now)
      return (job, attrs)) = .ok recorded := by
  induction jobs generalizing s recorded with
  | nil =>
    obtain ⟨hr, -⟩ := Stateful.pure_eq_ok.1 h
    obtain rfl := Option.some.inj hr
    rfl
  | cons j jobs ih =>
    obtain ⟨job, tags⟩ := j
    obtain ⟨owner, attrs, disk, rest, -, hattrs, -, hrest, rfl⟩ := recordJobs_cons_eq_some.1 h
    exact Exec.mapM_eq_ok.2 (.cons (Exec.bind_eq_ok.2 ⟨attrs, hattrs, rfl⟩)
      (Exec.mapM_eq_ok.1 (ih hrest)))

theorem origin_of_keepAttr {v w : Attrval} (h : keepAttr v = .ok w) : w.origin = v.origin := by
  obtain ⟨value, -, h⟩ := Exec.bind_eq_ok.1 h
  rw [← Except.ok.inj h]

theorem origin_of_tagAttrval {tag : SoapTag} {v : Attrval} (h : tagAttrval tag now = .ok v) :
    v.origin = .user := by
  obtain ⟨value, -, h⟩ := Exec.bind_eq_ok.1 h
  cases value with
  | string s => rw [← Except.ok.inj h]
  | blob bytes => rw [← Except.ok.inj h]
  | malformed => cases h

/-- Tags of several jobs are kept when there are some, of each of the jobs. -/
theorem keptJobs_eq_ok (h : keptJobs now jobs = .ok kept) : jobs ≠ [] ∧ (∀ j ∈ jobs, j.2 ≠ []) ∧
    ∀ k ∈ kept, ∀ v ∈ k.2, v.origin = .user := by
  obtain ⟨recorded, hrec, h⟩ := Exec.bind_eq_ok.1 h
  obtain ⟨recorded', helem, hkept⟩ := Exec.bind_eq_ok.1 h
  obtain ⟨hne, rfl⟩ := elements_eq_ok.1 helem
  obtain ⟨hto, hfrom⟩ := Exec.mem_of_mapM hkept
  obtain ⟨hto', hfrom'⟩ := Exec.mem_of_mapM hrec
  refine ⟨?_, fun j hj => ?_, fun k hk v hv => ?_⟩
  · rintro rfl
    exact hne (Except.ok.inj hrec).symm
  · obtain ⟨r, hr, hjr⟩ := hto' j hj
    obtain ⟨attrs, hattrs, hjr⟩ := Exec.bind_eq_ok.1 hjr
    obtain rfl := Except.ok.inj hjr
    obtain ⟨k, -, hk⟩ := hto _ hr
    obtain ⟨attrs', helem, -⟩ := Exec.bind_eq_ok.1 hk
    intro hnil
    rw [hnil] at hattrs
    obtain rfl := Except.ok.inj hattrs
    cases helem
  · -- the value was kept of one that was made of a tag
    obtain ⟨r, hr, hrk⟩ := hfrom k hk
    obtain ⟨j, -, hjr⟩ := hfrom' r hr
    obtain ⟨attrs, hattrs, hjr⟩ := Exec.bind_eq_ok.1 hjr
    obtain rfl := Except.ok.inj hjr
    obtain ⟨attrs', helem, hmap⟩ := Exec.bind_eq_ok.1 hrk
    obtain ⟨-, rfl⟩ := elements_eq_ok.1 helem
    obtain ⟨ws, hws, hend⟩ := Exec.bind_eq_ok.1 hmap
    obtain rfl := Except.ok.inj hend
    obtain ⟨w, hw, rfl⟩ := List.mem_map.1 hv
    obtain ⟨u, hu, huw⟩ := (Exec.mem_of_mapM hws).2 w hw
    obtain ⟨tag, -, htag⟩ := (Exec.mem_of_mapM hattrs).2 u hu
    exact (origin_of_keepAttr huw).trans (origin_of_tagAttrval htag)

theorem exists_keptJobs (hne : jobs ≠ []) (htags : ∀ j ∈ jobs, j.2 ≠ [])
    (hkept : ∀ c ∈ singleCalls jobs, ∃ attrs, keptTag now c.2 = .ok attrs) :
    ∃ kept, keptJobs now jobs = .ok kept := by
  have hcall : ∀ j ∈ jobs, ∀ tag ∈ j.2, ∃ v, tagAttrval tag now = .ok v ∧ ∃ w, keepAttr v = .ok w := by
    intro j hj tag htag
    obtain ⟨attrs, hattrs⟩ := hkept (j.1, tag)
      (List.mem_flatMap.2 ⟨j, hj, List.mem_map_of_mem htag⟩)
    obtain ⟨v, hv, hattrs⟩ := Exec.bind_eq_ok.1 hattrs
    obtain ⟨w, -, hw⟩ := (Exec.mem_of_mapM hattrs).1 v (List.mem_singleton_self v)
    exact ⟨v, hv, w, hw⟩
  have hjob : ∀ j ∈ jobs, ∃ attrs, j.2.mapM (tagAttrval · now) = .ok attrs := fun j hj =>
    Exec.exists_mapM fun tag htag => (hcall j hj tag htag).imp fun v h => h.1
  obtain ⟨recorded, hrec⟩ : ∃ recorded, (jobs.mapM fun (job, tags) => do
      let attrs ← tags.mapM (tagAttrval · now)
      return (job, attrs)) = .ok recorded := by
    refine Exec.exists_mapM fun j hj => ?_
    obtain ⟨attrs, hattrs⟩ := hjob j hj
    exact ⟨(j.1, attrs), Exec.bind_eq_ok.2 ⟨attrs, hattrs, rfl⟩⟩
  obtain ⟨hto, hfrom⟩ := Exec.mem_of_mapM hrec
  have hrecorded : recorded ≠ [] := by
    obtain ⟨j, hj⟩ := List.exists_mem_of_ne_nil _ hne
    obtain ⟨r, hr, -⟩ := hto j hj
    exact List.ne_nil_of_mem hr
  -- what was recorded of a job can be kept
  have hkeep : ∀ r ∈ recorded, r.2 ≠ [] ∧ ∃ attrs, r.2.mapM keepAttr = .ok attrs := by
    intro r hr
    obtain ⟨j, hj, hjr⟩ := hfrom r hr
    obtain ⟨attrs, hattrs, hjr⟩ := Exec.bind_eq_ok.1 hjr
    obtain rfl := Except.ok.inj hjr
    obtain ⟨htag, hattr⟩ := Exec.mem_of_mapM hattrs
    refine ⟨?_, Exec.exists_mapM fun v hv => ?_⟩
    · obtain ⟨tag, ht⟩ := List.exists_mem_of_ne_nil _ (htags j hj)
      obtain ⟨v, hv, -⟩ := htag tag ht
      exact List.ne_nil_of_mem hv
    · obtain ⟨tag, ht, hv'⟩ := hattr v hv
      obtain ⟨u, hu, hw⟩ := hcall j hj tag ht
      exact Except.ok.inj (hv'.symm.trans hu) ▸ hw
  obtain ⟨kept, hk⟩ : ∃ kept, matchAttrMulti recorded = .ok kept := by
    obtain ⟨kept, hk⟩ := Exec.exists_mapM (f := fun r : Bytes × List Attrval => do
        let attrs ← elements r.2
        let attrs ← attrs.mapM keepAttr
        return (r.1, attrs.map fun v => { v with originDetail := none })) fun r hr => by
      obtain ⟨hne, attrs, hattrs⟩ := hkeep r hr
      exact ⟨_, Exec.bind_eq_ok.2 ⟨r.2, elements_eq_ok.2 ⟨hne, rfl⟩,
        Exec.bind_eq_ok.2 ⟨attrs, hattrs, rfl⟩⟩⟩
    exact ⟨kept, Exec.bind_eq_ok.2 ⟨recorded, elements_eq_ok.2 ⟨hrecorded, rfl⟩, hk⟩⟩
  exact ⟨kept, Exec.bind_eq_ok.2 ⟨recorded, hrec, hk⟩⟩

/-- What a bulk request does: the tags are recorded and kept, and then matched. -/
theorem recordMultiTags_eq_true (h : recordMultiTags env feeds ctx now jobs s = .ok true s₂) :
    ∃ recorded kept t, recordJobs env ctx now jobs s = .ok (some recorded) t ∧
      keptJobs now jobs = .ok kept ∧ matchAttrMultiDeferred env feeds kept t = .ok () s₂ := by
  obtain ⟨ds, t, ht, h⟩ := Stateful.bind_eq_ok.1 h
  cases ds with
  | none =>
    obtain ⟨hd, -⟩ := Stateful.pure_eq_ok.1 h
    cases hd
  | some ds =>
    obtain ⟨left, t', hrun, h⟩ := Stateful.bind_eq_ok.1 h
    obtain ⟨hleft, rfl⟩ := Stateful.pure_eq_ok.1 h
    rw [List.isEmpty_iff.1 hleft] at hrun
    obtain ⟨recorded, u, hrec, hserve⟩ := Stateful.bind_eq_ok.1 ht
    cases recorded with
    | none =>
      obtain ⟨hd, -⟩ := Stateful.pure_eq_ok.1 hserve
      cases hd
    | some recorded =>
      obtain ⟨kept, u', hu, hend⟩ := Stateful.bind_eq_ok.1 hserve
      obtain ⟨hkept, rfl⟩ := Stateful.liftM_eq_ok.1 hu
      obtain ⟨hd, rfl⟩ := Stateful.pure_eq_ok.1 hend
      obtain rfl := Option.some.inj hd
      obtain ⟨ret, u', hdef, hrest⟩ := Stateful.bind_eq_ok.1 hrun
      obtain ⟨⟨⟩, u'', hmatch, hret⟩ := Stateful.bind_eq_ok.1 hdef
      obtain ⟨rfl, rfl⟩ := Stateful.pure_eq_ok.1 hret
      obtain ⟨-, rfl⟩ := Stateful.pure_eq_ok.1 hrest
      exact ⟨recorded, kept, u, hrec,
        Exec.bind_eq_ok.2 ⟨recorded, recordJobs_eq_some hrec, hkept⟩, hmatch⟩

theorem recordMultiTags_of_ok (hrec : recordJobs env ctx now jobs s = .ok (some recorded) t)
    (hkept : keptJobs now jobs = .ok kept)
    (hmatch : matchAttrMultiDeferred env feeds kept t = .ok () s₂) :
    recordMultiTags env feeds ctx now jobs s = .ok true s₂ := by
  obtain ⟨recorded', hrec', hkept⟩ := Exec.bind_eq_ok.1 hkept
  obtain rfl := Except.ok.inj (hrec'.symm.trans (recordJobs_eq_some hrec))
  refine Stateful.bind_eq_ok.2 ⟨some [.matchAttrMulti kept], t, ?_, ?_⟩
  · exact Stateful.bind_eq_ok.2 ⟨some recorded', t, hrec, Stateful.bind_eq_ok.2 ⟨kept, t,
      Stateful.liftM_eq_ok.2 ⟨hkept, rfl⟩, rfl⟩⟩
  · refine Stateful.bind_eq_ok.2 ⟨[], s₂, ?_, rfl⟩
    exact Stateful.bind_eq_ok.2 ⟨none, s₂, Stateful.bind_eq_ok.2 ⟨(), s₂, hmatch, rfl⟩, rfl⟩

/-- Among all that a feed asks for is the owner, a value of the system. -/
theorem system_mem_of_fullFeed {feed : Jpfeed} {job : Bytes} {a : List Attrval}
    (h : fullFeed (getAttrs env s) feed job = .ok a) : ∃ v ∈ a, v.origin = .system := by
  obtain ⟨names, -, h⟩ := Exec.bind_eq_ok.1 h
  have hmem : GLITE_JP_ATTR_OWNER ∈
      if GLITE_JP_ATTR_OWNER ∈ names then names else GLITE_JP_ATTR_OWNER :: names := by
    split_ifs with hn
    · exact hn
    · exact List.mem_cons_self
  obtain ⟨v, hv, hjv⟩ := exists_metadata_of_getAttrs h hmem (by simp [isMetadata])
  exact ⟨v, hv, origin_of_jobMetadata hjv⟩

theorem origin_of_jobRecord {job owner : Bytes} {attrs : List Attrval} {r : JobRecord}
    (h : jobRecord job owner attrs = .ok r) {o : AttrOrig} {so : SoapAttrOrig}
    (ho : jp2sOrigin o = .ok so) :
    ((∃ v ∈ attrs, v.origin = o) → ∃ av ∈ r.attributes, av.origin = so) ∧
      ((∀ v ∈ attrs, v.origin = o) → ∀ av ∈ r.attributes, av.origin = so) := by
  obtain ⟨attributes, hattrs, h⟩ := Exec.bind_eq_ok.1 h
  obtain rfl := Except.ok.inj h
  have horigin : ∀ {v : Attrval} {av : AttrValue}, jp2sAttrValue v = .ok av → v.origin = o →
      av.origin = so := by
    intro v av hv hvo
    obtain ⟨copy, -, hv⟩ := Exec.bind_eq_ok.1 hv
    obtain ⟨so', hso, hv⟩ := Exec.bind_eq_ok.1 hv
    rw [← Except.ok.inj hv]
    exact Except.ok.inj (hso.symm.trans (hvo ▸ ho))
  obtain ⟨hto, hfrom⟩ := Exec.mem_of_mapM hattrs
  constructor
  · rintro ⟨v, hv, hvo⟩
    obtain ⟨av, hav, hvav⟩ := hto v hv
    exact ⟨av, hav, horigin hvav hvo⟩
  · intro hall av hav
    obtain ⟨v, hv, hvav⟩ := hfrom av hav
    exact horigin hvav (hall v hv)

/-- A record of tags is not all that a feed asks for. -/
theorem not_fullRecord {calls : List (Bytes × SoapTag)} {feed : Jpfeed} {job job' owner : Bytes}
    {attrs : List Attrval} {r : JobRecord} (hr : jobRecord job' owner attrs = .ok r)
    (hattrs : ∀ v ∈ attrs, v.origin = .user) : ¬FullRecord env now s calls feed job r := by
  rintro ⟨n, disk, a, owner', -, hfull, hrec⟩
  have hsystem : jp2sOrigin .system = .ok .SYSTEM := rfl
  have huser : jp2sOrigin .user = .ok .USER := rfl
  obtain ⟨av, hav, hsys⟩ := (origin_of_jobRecord hrec hsystem).1 (system_mem_of_fullFeed hfull)
  have huser := (origin_of_jobRecord hr huser).2 hattrs av hav
  rw [hsys] at huser
  cases huser

/-- Tagging in bulk does what tagging one by one has done exactly when there is something to
    be tagged and no feed matches a job it has not got yet: such a job is sent with its tags
    only, and it is not marked. -/
theorem bulkAgrees_iff
    (hsingle : recordTags env feeds ctx now (singleCalls jobs) s = .ok true s₁) :
    BulkAgrees env feeds ctx now jobs s s₁ ↔ OnlyUpdates env feeds now jobs s := by
  obtain ⟨disk, hdisk, hstate, hcalls, hfed⟩ := recordTags_eq_true hsingle
  have hjob : ∀ j ∈ jobs, ∀ tag ∈ j.2, (j.1, tag) ∈ singleCalls jobs := fun j hj tag htag =>
    List.mem_flatMap.2 ⟨j, hj, List.mem_map_of_mem htag⟩
  have hrecord : (∀ j ∈ jobs, j.2 ≠ []) → ∃ recorded,
      recordJobs env ctx now jobs s = .ok (some recorded) { s with disk } := by
    intro htags
    obtain ⟨recorded, -, hrec⟩ := recordJobs_of_diskAfter htags (fun j hj => by
      obtain ⟨tag, htag⟩ := List.exists_mem_of_ne_nil _ (htags j hj)
      exact (hcalls _ (hjob j hj tag htag)).1) hdisk
    exact ⟨recorded, hrec⟩
  constructor
  · rintro ⟨s₂, hmulti, -, -, hsent⟩
    obtain ⟨recorded, kept, t, hrec, hkept, hmatch⟩ := recordMultiTags_eq_true hmulti
    obtain ⟨hne, htags, huser⟩ := keptJobs_eq_ok hkept
    obtain ⟨recorded', hrec'⟩ := hrecord htags
    obtain ⟨-, rfl⟩ := EStateM.Result.ok.inj (hrec.symm.trans hrec')
    obtain ⟨-, ⟨msgs, hmsgs, hfrom⟩, hsendable⟩ := matchAttrMultiDeferred_eq_ok hmatch
    -- in bulk nothing is sent with all that a feed asks for
    have hmarked : ∀ f ∈ feeds, ∀ job,
        MatchedBySingle env now s (singleCalls jobs) f job ∨ MatchedByBulk env now s jobs f job →
          Marked s f job := by
      intro f hf job hmatched
      by_contra hnot
      obtain ⟨m, hm, -, -, r, hr, hfull⟩ := (hsent f hf job hmatched hnot).2
      rw [hmsgs, List.drop_left] at hm
      obtain ⟨j, hj, owner, hjr⟩ := hfrom m hm r hr
      exact not_fullRecord hjr (huser j hj) hfull
    refine ⟨hne, htags, fun f hf job h => hmarked f hf job (.inl h), ?_⟩
    intro kept' disk' hkept' hdisk' f hf hasks j hj
    obtain rfl := Except.ok.inj (hkept.symm.trans hkept')
    obtain rfl := Except.ok.inj (hdisk.symm.trans hdisk')
    refine (hsendable f hf hasks j hj).imp_right fun ⟨hb, _, hr⟩ => ⟨hb, ?_, hr⟩
    exact hmarked f hf j.1 (.inr ⟨kept, disk, j.2, hkept, hdisk, hasks, hj, hb⟩)
  · rintro ⟨hne, htags, hsingle', hbulk⟩
    obtain ⟨recorded, hrec⟩ := hrecord htags
    obtain ⟨kept, hkept⟩ := exists_keptJobs hne htags fun c hc => (hcalls c hc).2.1
    have hattrs : ∀ f ∈ feeds, f.attrs ≠ [] := by
      obtain ⟨j, hj⟩ := List.exists_mem_of_ne_nil _ hne
      obtain ⟨tag, htag⟩ := List.exists_mem_of_ne_nil _ (htags j hj)
      exact (hcalls _ (hjob j hj tag htag)).2.2
    have hupdates := hbulk kept disk hkept hdisk
    obtain ⟨s₂, hmatch⟩ := exists_matchAttrMultiDeferred hattrs fun f hf hasks j hj =>
      (hupdates f hf hasks j hj).sendable
    obtain ⟨hstate₂, -, -⟩ := matchAttrMultiDeferred_eq_ok hmatch
    refine ⟨s₂, recordMultiTags_of_ok hrec hkept hmatch, ?_, ?_, fun f hf job hmatched hnot => ?_⟩
    · rw [hstate₂, hstate]
    · rw [hfed hsingle', hstate₂]
    · -- a job that is matched is marked
      refine absurd ?_ hnot
      rcases hmatched with h | ⟨kept', disk', attrs, hkept', hdisk', hasks, hj, hb⟩
      · exact hsingle' f hf job h
      · obtain rfl := Except.ok.inj (hkept.symm.trans hkept')
        obtain rfl := Except.ok.inj (hdisk.symm.trans hdisk')
        rcases hupdates f hf hasks _ hj with hfalse | ⟨-, hmark, -⟩
        · cases hfalse.symm.trans hb
        · exact hmark

end Agree

/-! ## A job that is tagged -/

/-- A client who is the owner of the job. -/
def alice : PsContext := ⟨some (ascii "/CN=alice"), false, []⟩

/-- A tag of the job. -/
def redTag : SoapTag := ⟨ascii "urn:app:color", some (.string (ascii "red"))⟩

/-- A storage with the job, and some marks. -/
def oneJobState (fed : Table FedRow (· = ·)) : PsState where
  sent := []
  fed := fed
  tables := ⟨oneJob, .empty, oneUser⟩
  disk _ := none
  feeds := .empty

/-- The mark of the job for a feed of the colors of the jobs of alice. -/
def oneMark : Table FedRow (· = ·) :=
  ⟨[⟨ascii "feed", ascii "abcdefghij"⟩], List.pairwise_singleton _ _⟩

theorem exists_recordTags_marked : ∃ s₁, recordTags sampleEnv [aliceFeed (ascii "urn:app:color")]
    alice 100 (singleCalls [(lateJob.dgJobid, [redTag])]) (oneJobState oneMark) = .ok true s₁ :=
  ⟨_, rfl⟩

theorem bulkAgrees_iff_marked : ∃ s₁, recordTags sampleEnv [aliceFeed (ascii "urn:app:color")]
    alice 100 (singleCalls [(lateJob.dgJobid, [redTag])]) (oneJobState oneMark) = .ok true s₁ ∧
    (BulkAgrees sampleEnv [aliceFeed (ascii "urn:app:color")] alice 100 [(lateJob.dgJobid, [redTag])]
      (oneJobState oneMark) s₁ ↔
      OnlyUpdates sampleEnv [aliceFeed (ascii "urn:app:color")] 100 [(lateJob.dgJobid, [redTag])]
        (oneJobState oneMark)) :=
  exists_recordTags_marked.imp fun _ h => ⟨h, bulkAgrees_iff h⟩

/-- The marks behind a run that does all it should. -/
def marksLeft : EStateM.Result Stop PsState Bool → Option (List FedRow)
  | .ok true s => some s.fed.rows
  | _ => none

theorem exists_of_marksLeft {r : EStateM.Result Stop PsState Bool} {rows : List FedRow}
    (h : marksLeft r = some rows) : ∃ s, r = .ok true s ∧ s.fed.rows = rows := by
  unfold marksLeft at h
  split at h
  · exact ⟨_, rfl, Option.some.inj h⟩
  · cases h

/-- The job is not marked before it is tagged: one by one this marks it, in bulk it does not. -/
theorem not_bulkAgrees_unmarked : ∃ s₁,
    recordTags sampleEnv [aliceFeed (ascii "urn:app:color")] alice 100
      (singleCalls [(lateJob.dgJobid, [redTag])]) (oneJobState .empty) = .ok true s₁ ∧
    ¬BulkAgrees sampleEnv [aliceFeed (ascii "urn:app:color")] alice 100
      [(lateJob.dgJobid, [redTag])] (oneJobState .empty) s₁ := by
  have hsingle : marksLeft (recordTags sampleEnv [aliceFeed (ascii "urn:app:color")] alice 100
      (singleCalls [(lateJob.dgJobid, [redTag])]) (oneJobState .empty)) = some oneMark.rows := by
    decide +kernel
  have hmulti : marksLeft (recordMultiTags sampleEnv [aliceFeed (ascii "urn:app:color")] alice 100
      [(lateJob.dgJobid, [redTag])] (oneJobState .empty)) = some [] := by decide +kernel
  obtain ⟨s₁, hs₁, hrows₁⟩ := exists_of_marksLeft hsingle
  obtain ⟨s₂', hs₂, hrows₂⟩ := exists_of_marksLeft hmulti
  refine ⟨s₁, hs₁, ?_⟩
  rintro ⟨s₂, hbulk, -, hfed, -⟩
  obtain ⟨-, rfl⟩ := EStateM.Result.ok.inj (hbulk.symm.trans hs₂)
  rw [hfed, hrows₁] at hrows₂
  exact absurd hrows₂ (List.cons_ne_nil _ _)

end JobProvenance
