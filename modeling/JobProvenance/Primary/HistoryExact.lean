import JobProvenance.Primary.History

/-!
# Which jobs of the past are sent

The jobs that a feed of the past should have are those whose metadata meet the
conditions on them, and which have for every other condition a value that meets
it. `complete_iff`: they are sent, and no others, unless one of them has no value
of an attribute that is asked for: such a job is not stacked. The owner and the
job identifier do not count, although they are sent.

* `mem_queryRows`: the rows of the query are the jobs that meet the conditions on
  the metadata;
* `stackedJob_eq_some`: what else it takes to be stacked.
-/

namespace JobProvenance

section Exact

variable {jobs : Table JobRow JobRow.Clash} {users : List UserRow}
  {getAttrs : Bytes → List Bytes → Exec (List Attrval)} {feed : Jpfeed} {f : HistoryFeed}
  {job : JobRow} {user : UserRow} {items : List StackedJob} {msgs : List Sent}

/-! ## Specification -/

/-- The metadata of a job meet the conditions. -/
def MeetsMeta (users : List UserRow) (qry : List QueryRec) (job : JobRow) : Prop :=
  ∃ user ∈ users, user.userid = job.owner ∧
    ∀ qr ∈ qry, ∃ c, metaCond qr = .ok c ∧ c.holds user.certSubj job.regTime = true

/-- Some value of a job meets each of the other conditions. -/
def MeetsOther (getAttrs : Bytes → List Bytes → Exec (List Attrval)) (f : HistoryFeed)
    (job : JobRow) : Prop :=
  ∀ qr ∈ f.otherQry, ∃ other, getAttrs job.dgJobid f.otherAttr = .ok other ∧
    ∃ v ∈ other, checkQryItem qr v = .ok true

/-- A job meets the conditions of a feed. -/
structure Satisfies (users : List UserRow) (getAttrs : Bytes → List Bytes → Exec (List Attrval))
    (f : HistoryFeed) (job : JobRow) : Prop where
  meetsMeta : MeetsMeta users f.metaQry job
  meetsOther : MeetsOther getAttrs f job

/-- A job has a value of an attribute the feed asks for, other than the owner and the job
    identifier: the time of the registration is one that every job has. -/
def HasRequested (getAttrs : Bytes → List Bytes → Exec (List Attrval)) (feed : Jpfeed)
    (f : HistoryFeed) (job : JobRow) : Prop :=
  GLITE_JP_ATTR_REGTIME ∈ feed.attrs ∨ ∃ other, getAttrs job.dgJobid f.otherAttr = .ok other ∧
    ∃ v ∈ other, v.name ∈ feed.attrs ∧ isMetadata v.name = false ∧ v.name ≠ GLITE_JP_ATTR_JOBID

/-- A job is in one of the messages. -/
def Handed (msgs : List Sent) (job : Bytes) : Prop :=
  ∃ m ∈ msgs, ∃ r ∈ m.msg.jobAttributes, r.jobid = some job

/-- The jobs that are sent are those that meet the conditions. -/
def CompleteHistory (jobs : Table JobRow JobRow.Clash) (users : List UserRow)
    (getAttrs : Bytes → List Bytes → Exec (List Attrval)) (f : HistoryFeed) (msgs : List Sent) :
    Prop :=
  ∀ jobid, Handed msgs jobid ↔ ∃ job ∈ jobs.rows, job.dgJobid = jobid ∧ Satisfies users getAttrs f job

/-! ## The query -/

theorem MetaCond.holds_all {qry : List QueryRec} {conds : List MetaCond} {certSubj : Bytes}
    {regTime : ℤ} (h : qry.mapM metaCond = .ok conds) :
    conds.all (·.holds certSubj regTime) = true ↔
      ∀ qr ∈ qry, ∃ c, metaCond qr = .ok c ∧ c.holds certSubj regTime = true := by
  obtain ⟨hl, hr⟩ := Exec.mem_of_mapM h
  rw [List.all_eq_true]
  constructor
  · intro hall qr hqr
    obtain ⟨c, hc, hqc⟩ := hl qr hqr
    exact ⟨c, hqc, hall c hc⟩
  · intro hall c hc
    obtain ⟨qr, hqr, hqc⟩ := hr c hc
    obtain ⟨c', hqc', hholds⟩ := hall qr hqr
    rwa [Except.ok.inj (hqc.symm.trans hqc')]

/-- A time that cannot be read stops the server. -/
theorem attr2time_bind_ne_ENOENT {α : Type} {p : Option Bytes} {g : ℤ → Exec α}
    (hg : ∀ t, g t ≠ .error (.errno .ENOENT)) :
    (Exec.deref p >>= fun value => attr2time value >>= g) ≠ .error (.errno .ENOENT) := by
  cases p with
  | none => exact fun h => by cases h
  | some value =>
    rw [Exec.deref, Exec.ok_bind]
    unfold attr2time
    split
    · exact hg _
    · exact fun h => by cases h

/-- That there are no jobs is not an error of a condition. -/
theorem metaCond_ne_ENOENT (qr : QueryRec) : metaCond qr ≠ .error (.errno .ENOENT) := by
  unfold metaCond
  split_ifs
  · exact fun h => by cases h
  · split <;> exact fun h => by cases h
  · refine attr2time_bind_ne_ENOENT fun t => ?_
    split
    case h_5 => exact attr2time_bind_ne_ENOENT fun t₂ h => by cases h
    all_goals exact fun h => by cases h
  · exact fun h => by cases h

/-- The rows the database returns. -/
theorem mem_beRows {jobs : List JobRow} {conds : List MetaCond} {row : JobRow × UserRow} :
    row ∈ beRows jobs users conds true ↔ row.1 ∈ jobs ∧ row.2 ∈ users ∧ row.2.userid = row.1.owner ∧
      conds.all (·.holds row.2.certSubj row.1.regTime) = true := by
  obtain ⟨j, u⟩ := row
  rw [beRows, Bool.true_or, if_pos rfl, List.mem_filter, List.pair_mem_product, Bool.and_eq_true,
    Bool.not_true, Bool.false_or, decide_eq_true_eq, and_assoc, and_comm (b := u.userid = j.owner)]

/-- The rows are those of the jobs that meet the conditions on the metadata. -/
theorem mem_queryRows {rows : List (Bytes × List Attrval)} {row : Bytes × List Attrval}
    (h : queryRows (beQuery jobs.rows users) f = .ok rows) : row ∈ rows ↔
      ∃ job ∈ jobs.rows, ∃ user ∈ users, user.userid = job.owner ∧
        (∀ qr ∈ f.metaQry, ∃ c, metaCond qr = .ok c ∧ c.holds user.certSubj job.regTime = true) ∧
        row = (job.dgJobid, beValues (GLITE_JP_ATTR_OWNER :: f.metaAttr) job user) := by
  unfold queryRows beQuery at h
  have howner : decide (GLITE_JP_ATTR_OWNER ∈ GLITE_JP_ATTR_OWNER :: f.metaAttr) = true :=
    decide_eq_true List.mem_cons_self
  rw [howner] at h
  by_cases hlen : 2 < (GLITE_JP_ATTR_OWNER :: f.metaAttr).length
  · rw [if_pos hlen] at h
    cases h
  rw [if_neg hlen] at h
  cases hc : f.metaQry.mapM metaCond with
  | error e =>
    obtain ⟨qr, -, hqr⟩ := Exec.error_of_mapM hc
    have hne : e ≠ .errno .ENOENT := fun he => metaCond_ne_ENOENT qr (he ▸ hqr)
    rw [hc, Exec.error_bind] at h
    split at h
    · rename_i he
      exact absurd (Except.error.inj he) hne
    · cases h
  | ok conds =>
    rw [hc, Exec.ok_bind] at h
    have hrows : rows = (beRows jobs.rows users conds true).map fun r =>
        (r.1.dgJobid, beValues (GLITE_JP_ATTR_OWNER :: f.metaAttr) r.1 r.2) := by
      by_cases hall : (GLITE_JP_ATTR_OWNER :: f.metaAttr).all isMetadata = true
      · by_cases hnil : GLITE_JP_ATTR_OWNER :: f.metaAttr = [] ∨ conds = []
        · rw [if_neg (not_not.2 hall), if_pos hnil] at h
          cases h
        rw [if_neg (not_not.2 hall), if_neg hnil] at h
        cases hb : beRows jobs.rows users conds true with
        | nil =>
          rw [hb] at h
          exact (Except.ok.inj h).symm
        | cons r rs =>
          rw [hb] at h
          exact (Except.ok.inj h).symm
      · rw [if_pos hall] at h
        cases h
    rw [hrows, List.mem_map]
    constructor
    · rintro ⟨⟨job, user⟩, hr, rfl⟩
      obtain ⟨hj, hu, hid, hholds⟩ := mem_beRows.1 hr
      exact ⟨job, hj, user, hu, hid, (MetaCond.holds_all hc).1 hholds, rfl⟩
    · rintro ⟨job, hj, user, hu, hid, hholds, rfl⟩
      exact ⟨(job, user), mem_beRows.2 ⟨hj, hu, hid, (MetaCond.holds_all hc).2 hholds⟩, rfl⟩

/-! ## The callback -/

/-- The parts of a feed. -/
theorem splitFeed_attrs (hf : splitFeed feed = .ok f) {a : Bytes} :
    (a ∈ f.metaAttr ↔ a ∈ feed.attrs ∧ a = GLITE_JP_ATTR_REGTIME) ∧
    (a ∈ f.otherAttr.take f.intOtherAttr ↔
      a ∈ feed.attrs ∧ isMetadata a = false ∧ a ≠ GLITE_JP_ATTR_JOBID) := by
  obtain ⟨attrs, ha, h⟩ := Exec.bind_eq_ok.1 hf
  obtain ⟨qry, -, h⟩ := Exec.bind_eq_ok.1 h
  obtain rfl : attrs = feed.attrs := (elements_eq_ok.1 ha).2
  dsimp only at h
  split_ifs at h
  obtain rfl := Except.ok.inj h
  constructor
  · simp only [List.mem_filter, Bool.and_eq_true, decide_eq_true_eq, isMetadata, Bool.or_eq_true]
    constructor
    · rintro ⟨ha, h, hne⟩
      exact ⟨ha, h.resolve_left hne⟩
    · rintro ⟨ha, rfl⟩
      exact ⟨ha, .inr rfl, by decide⟩
  · simp only [List.take_left', List.mem_filter, Bool.and_eq_true, Bool.not_eq_true',
      decide_eq_true_eq]

theorem otherValues_eq_some {other : Option (List Attrval)} {id : Bytes}
    (h : otherValues getAttrs f id = .ok other) {o : List Attrval} :
    other = some o ↔ getAttrs id f.otherAttr = .ok o := by
  unfold otherValues at h
  split at h
  · rename_i o' ho
    rw [← Except.ok.inj h, ho, Option.some.injEq, Except.ok.injEq]
  · rename_i ho
    rw [← Except.ok.inj h, ho]
    exact iff_of_false (by simp) (by simp)
  · cases h
  · cases h

/-- When the conditions can be checked, they are met or not. -/
theorem passes_eq_true {other : Option (List Attrval)} {b : Bool} (h : passes f other = .ok b) :
    b = true ↔ ∀ qr ∈ f.otherQry, ∃ o, other = some o ∧ ∃ v ∈ o, checkQryItem qr v = .ok true := by
  cases other with
  | none =>
    rw [← Except.ok.inj h, List.isEmpty_iff, List.eq_nil_iff_forall_not_mem]
    simp
  | some o =>
    rw [passes] at h
    constructor
    · rintro rfl qr hqr
      exact ⟨o, rfl, Exec.anyM_eq_true (Exec.allM_eq_true.1 h qr hqr)⟩
    · intro hall
      by_contra hb
      rw [Bool.not_eq_true] at hb
      subst hb
      obtain ⟨qr, hqr, hany⟩ := Exec.allM_eq_false h
      obtain ⟨o', ho, v, hv, hcheck⟩ := hall qr hqr
      rw [← Option.some.inj ho] at hv
      rw [Exec.anyM_eq_false.1 hany v hv] at hcheck
      cases hcheck

theorem flatMap_replicate_eq_nil {vs : List Attrval} {names : List Bytes} :
    (vs.flatMap fun v => List.replicate (names.count v.name) v) = [] ↔ ∀ v ∈ vs, v.name ∉ names := by
  rw [List.flatMap_eq_nil_iff]
  refine forall₂_congr fun v _ => ?_
  rw [List.replicate_eq_nil_iff, List.count_eq_zero]

/-- There is nothing to send when no value is asked for. -/
theorem extract_eq_nil {metadata out : List Attrval} {other : Option (List Attrval)}
    (h : extract f metadata other = .ok out) : out = [] ↔
      (∀ v ∈ metadata, v.name ∉ f.metaAttr) ∧
        ∀ o, other = some o → ∀ v ∈ o, v.name ∉ f.otherAttr.take f.intOtherAttr := by
  have hlen := (Exec.mapM_eq_ok.1 h).length_eq
  rw [← List.length_eq_zero_iff, ← hlen, List.length_eq_zero_iff, List.append_eq_nil_iff,
    flatMap_replicate_eq_nil, flatMap_replicate_eq_nil]
  cases other <;> simp

/-- What it takes to be stacked, when the callback returns zero. -/
theorem stackedJob_eq_some {r : Option StackedJob} (hf : splitFeed feed = .ok f)
    (h : stackedJob getAttrs f (job.dgJobid,
      beValues (GLITE_JP_ATTR_OWNER :: f.metaAttr) job user) = .ok r) :
    (∀ j, r = some j → j.job = job.dgJobid) ∧
      (r.isSome ↔ MeetsOther getAttrs f job ∧ HasRequested getAttrs feed f job) := by
  obtain ⟨other, ho, h⟩ := Exec.bind_eq_ok.1 h
  obtain ⟨pass, hp, h⟩ := Exec.bind_eq_ok.1 h
  have hmeets : pass = true ↔ MeetsOther getAttrs f job := by
    rw [passes_eq_true hp]
    simp only [otherValues_eq_some ho, MeetsOther]
  cases pass with
  | false =>
    obtain rfl := Except.ok.inj h
    exact ⟨fun j hj => by (cases hj), iff_of_false (by simp) fun hm => by simpa using hmeets.2 hm.1⟩
  | true =>
    obtain ⟨out, hout, h⟩ := Exec.bind_eq_ok.1 h
    have hreq : out = [] ↔ ¬HasRequested getAttrs feed f job := by
      rw [extract_eq_nil hout, HasRequested, not_or]
      refine and_congr ?_ ?_
      · -- the metadata are the owner, which is none of them, and those that are asked for
        rw [← not_iff_not, not_not]
        push Not
        constructor
        · rintro ⟨v, -, hv⟩
          obtain ⟨hmem, hname⟩ := (splitFeed_attrs hf).1.1 hv
          rwa [hname] at hmem
        · intro hmem
          have hmeta := (splitFeed_attrs hf).1.2 ⟨hmem, rfl⟩
          exact ⟨_, List.mem_map_of_mem (List.mem_cons_of_mem _ hmeta), hmeta⟩
      · simp only [otherValues_eq_some ho, (splitFeed_attrs hf).2]
        push Not
        rfl
    split_ifs at h with hnil
    · obtain rfl := Except.ok.inj h
      exact ⟨fun j hj => by (cases hj), iff_of_false (by simp) fun hm => hreq.1 hnil hm.2⟩
    · obtain ⟨owner, -, h⟩ := Exec.bind_eq_ok.1 h
      obtain rfl := Except.ok.inj h
      refine ⟨fun j hj => by rw [← Option.some.inj hj], iff_of_true rfl ⟨hmeets.1 rfl, ?_⟩⟩
      exact not_not.1 fun hn => hnil (hreq.2 hn)

/-- The jobs in the messages are the stacked ones. -/
theorem InBatches.handed_iff (h : InBatches f items msgs) {id : Bytes} :
    Handed msgs id ↔ ∃ j ∈ items, j.job = id := by
  obtain ⟨batches, rfl, -, hm⟩ := h
  constructor
  · rintro ⟨m, hmem, r, hr, hid⟩
    obtain ⟨b, hb, done, hbm⟩ := (Exec.mem_of_forall₂ hm).2 m hmem
    obtain ⟨j, hj, hjr⟩ := (Exec.mem_of_mapM hbm.records).2 r hr
    refine ⟨j, List.mem_flatten.2 ⟨b, hb, hj⟩, ?_⟩
    exact Option.some.inj ((jobid_of_jobRecord hjr).symm.trans hid)
  · rintro ⟨j, hj, rfl⟩
    obtain ⟨b, hb, hj⟩ := List.mem_flatten.1 hj
    obtain ⟨m, hmem, done, hbm⟩ := (Exec.mem_of_forall₂ hm).1 b hb
    obtain ⟨r, hr, hjr⟩ := (Exec.mem_of_mapM hbm.records).1 j hj
    exact ⟨m, hmem, r, hr, jobid_of_jobRecord hjr⟩

/-- The stacked jobs are those that meet the conditions and have something to send. -/
theorem exists_acceptedJob (hf : splitFeed feed = .ok f)
    (h : acceptedJobs (beQuery jobs.rows users) getAttrs f = .ok items) {id : Bytes} :
    (∃ j ∈ items, j.job = id) ↔ ∃ job ∈ jobs.rows, job.dgJobid = id ∧
      Satisfies users getAttrs f job ∧ HasRequested getAttrs feed f job := by
  obtain ⟨rows, hrows, h⟩ := Exec.bind_eq_ok.1 h
  obtain ⟨rs, hrs, h⟩ := Exec.bind_eq_ok.1 h
  obtain rfl := Except.ok.inj h
  obtain ⟨hl, hr⟩ := Exec.mem_of_mapM hrs
  constructor
  · rintro ⟨j, hj, rfl⟩
    obtain ⟨row, hrow, hjob⟩ := hr _ (List.reduceOption_mem_iff.1 hj)
    obtain ⟨job, hmem, user, hu, hid, hmeta, rfl⟩ := (mem_queryRows hrows).1 hrow
    obtain ⟨hname, hsome⟩ := stackedJob_eq_some hf hjob
    obtain ⟨hother, hreq⟩ := hsome.1 rfl
    exact ⟨job, hmem, (hname j rfl).symm, ⟨⟨user, hu, hid, hmeta⟩, hother⟩, hreq⟩
  · rintro ⟨job, hmem, rfl, ⟨⟨user, hu, hid, hmeta⟩, hother⟩, hreq⟩
    obtain ⟨r, hmemr, hjob⟩ := hl _ ((mem_queryRows hrows).2 ⟨job, hmem, user, hu, hid, hmeta, rfl⟩)
    obtain ⟨hname, hsome⟩ := stackedJob_eq_some hf hjob
    obtain ⟨j, rfl⟩ := Option.isSome_iff_exists.1 (hsome.2 ⟨hother, hreq⟩)
    exact ⟨j, List.reduceOption_mem_iff.2 hmemr, hname j rfl⟩

end Exact

/-! ## The result -/

section Result

variable {jobs : Table JobRow JobRow.Clash} {users : List UserRow} {answers : ℕ → Bool}
  {getAttrs : Bytes → List Bytes → Exec (List Attrval)} {feed : Jpfeed} {s s' : Outbox}

theorem complete_iff
    (h : runFeedDeferred answers (beQuery jobs.rows users) getAttrs feed s = .ok none s') :
    ∃ f msgs, splitFeed feed = .ok f ∧ s'.sent = s.sent ++ msgs ∧
      (CompleteHistory jobs users getAttrs f msgs ↔
        ∀ job ∈ jobs.rows, Satisfies users getAttrs f job → HasRequested getAttrs feed f job) := by
  obtain ⟨f, items, msgs, hf, hi, hsent, hmsgs⟩ := runFeedDeferred_eq_ok h
  refine ⟨f, msgs, hf, hsent, ?_⟩
  unfold CompleteHistory
  simp only [hmsgs.inBatches.handed_iff, exists_acceptedJob hf hi]
  constructor
  · intro hall job hmem hsat
    obtain ⟨job', hmem', hid, -, hreq⟩ := (hall job.dgJobid).2 ⟨job, hmem, rfl, hsat⟩
    -- a job identifier is that of one job
    rwa [Table.eq_of_clash hmem hmem' (.inr hid.symm)]
  · intro hall id
    constructor
    · rintro ⟨job, hmem, hid, hsat, -⟩
      exact ⟨job, hmem, hid, hsat⟩
    · rintro ⟨job, hmem, hid, hsat⟩
      exact ⟨job, hmem, hid, hsat, hall job hmem hsat⟩

end Result

theorem complete_iff_threeJobs : ∃ s', runFeedDeferred (fun _ => true)
    (beQuery threeJobs.rows twoUsers.rows) noOtherAttrs regtimeFeed ⟨[], .empty⟩ = .ok none s' ∧
    ∃ f msgs, splitFeed regtimeFeed = .ok f ∧ s'.sent = (⟨[], .empty⟩ : Outbox).sent ++ msgs ∧
      (CompleteHistory threeJobs twoUsers.rows noOtherAttrs f msgs ↔ ∀ job ∈ threeJobs.rows,
        Satisfies twoUsers.rows noOtherAttrs f job → HasRequested noOtherAttrs regtimeFeed f job) :=
  exists_run_threeJobs.imp fun _ h => ⟨h.1, complete_iff h.1⟩

/-- A feed of the owners. -/
def ownerFeed : Jpfeed := { regtimeFeed with attrs := [GLITE_JP_ATTR_OWNER] }

/-- When only the owner is asked for, nothing is sent of a job that meets the conditions. -/
theorem not_complete_owner : runFeedDeferred (fun _ => true) (beQuery oneJob.rows oneUser.rows)
    noOtherAttrs ownerFeed ⟨[], .empty⟩ = .ok none ⟨[], .empty⟩ ∧
    ∃ f, splitFeed ownerFeed = .ok f ∧ ¬CompleteHistory oneJob oneUser.rows noOtherAttrs f [] := by
  have hc : metaCond (onRegtime .less 2000000000) = .ok (.regTimeLt 2000000000) := by
    decide +kernel
  refine ⟨rfl, _, rfl, fun h => ?_⟩
  have hmeta : MeetsMeta oneUser.rows [onRegtime .less 2000000000] lateJob := by
    refine ⟨⟨lateJob.owner, ascii "/CN=alice"⟩, List.mem_singleton_self _, rfl, fun qr hqr => ?_⟩
    obtain rfl := List.mem_singleton.1 hqr
    exact ⟨_, hc, by decide⟩
  obtain ⟨m, hm, -⟩ := (h lateJob.dgJobid).2
    ⟨lateJob, List.mem_singleton_self _, rfl, hmeta, fun qr hqr => absurd hqr List.not_mem_nil⟩
  exact List.not_mem_nil hm

end JobProvenance
