import JobProvenance.Index.FeedFlags

/-!
# Done and delivered

`UpdateJobs` sets the flag `DONE` of a feed before it stores the records of the
message, and none of it is a transaction.

The record beside the database has, for each feed, the message that has set its
flag.

* `stored_of_updateRecords`: what a call stores that gets to its end;
* `delivered_of_reachable`: as long as the calls that set the flag get to their
  end, and no update is made to change the key of a job, the records of the
  message that has set the flag of a feed are stored;
* `not_delivered_sample`: a statement fails once the flag is set.
-/

namespace JobProvenance

open Stateful

/-- A call of `UpdateJobs`, with the statements that fail in it. -/
structure ServedCall where
  fails : Statement → Bool
  msg : UpdateJobs

/-- For each feed, the message that has set its flag `DONE`. -/
abbrev DeliveryRecord := ℕ → Option UpdateJobs

/-- The record after a call. -/
def DeliveryRecord.next (db : IndexDb) (a : ServedCall) (db' : IndexDb) (g : DeliveryRecord) :
    DeliveryRecord := fun u =>
  if !hasFlag GLITE_JP_IS_STATE_DONE db.feeds u && hasFlag GLITE_JP_IS_STATE_DONE db'.feeds u then
    some a.msg
  else g u

variable (ctx : IndexContext)

/-- The server, which serves one call after the other; what a call leaves behind
    stays, however it ends. -/
def servingSystem : System (IndexDb × DeliveryRecord) ServedCall :=
  System.recorded ⟨fun _ => True, fun db a db' => db' = left (updateJobs ctx a.fails a.msg db)⟩
    (fun _ => none) DeliveryRecord.next

/-- A value of a job is stored, if its attribute is configured. -/
def StoredAttr (jobid : Bytes) (db : IndexDb) (attr : AttrValue) : Prop :=
  isKnown ctx.conf attr.name = true → ∃ av row value, soapToAttrVal attr = .ok (some av) ∧
    attrvalRow ctx jobid av = .ok (row, value) ∧ row ∈ db.values (attr2id ctx.md5 av.name)

/-- A record is stored: the job has a row, and its values are stored. -/
def StoredRecord (db : IndexDb) (r : JobRecord) : Prop := ∃ jobid, r.jobid = some jobid ∧
  (∃ j ∈ db.jobs.rows, j.jobid = ctx.md5 jobid) ∧
    ∀ attr ∈ r.attributes, StoredAttr ctx jobid db attr

/-- When the flag `DONE` of a feed is set, the records of the message that has set it
    are stored. -/
def DoneDelivered (s : IndexDb × DeliveryRecord) : Prop := ∀ u msg, s.2 u = some msg →
  hasFlag GLITE_JP_IS_STATE_DONE s.1.feeds u = true →
    ∀ r ∈ msg.jobAttributes, StoredRecord ctx s.1 r

/-- The text of an update that does not set the key of a job. -/
def KeepsJobid (sql : Bytes) : Prop :=
  ∀ u, Sql.parseUpdate sql = some u → ∀ c ∈ u.sets, c.1 ≠ ascii "jobid"

/-- Whether a call sets the flag `DONE`: the message is the last of the history of a
    feed that has not got it, and the two statements for that do not fail. -/
def SetsDone (db : IndexDb) (a : ServedCall) : Prop :=
  a.fails .selectInfoFeed = false ∧ a.msg.feedDone = true ∧ a.fails .updateStateFeed = false ∧
    ∃ feed, db.feed a.msg.feedId = some feed ∧ feed.state &&& GLITE_JP_IS_STATE_DONE = 0

/-- A call that sets the flag `DONE` finds no statement failing, and its message is
    accepted; and no call has values or jobs in whose updates the key of a job is set. -/
def Completes (s : IndexDb × DeliveryRecord) (a : ServedCall) : Prop :=
  (SetsDone s.1 a → (∀ p, a.fails p = false) ∧ Accepts ctx a.msg s.1) ∧
    ∀ r ∈ a.msg.jobAttributes, ∀ sql ∈ columnTexts ctx (r.jobid.getD []) r.attributes,
      KeepsJobid sql

/-! ## What stays stored -/

section Stays

variable {ctx} {texts : Set Bytes} {jobid : Bytes} {attr : AttrValue} {r : JobRecord}

theorem setColumn_jobid {j j' : IndexJob} {c : Bytes × Bytes} (h : j.setColumn c = some j')
    (hc : c.1 ≠ ascii "jobid") : j'.jobid = j.jobid := by
  unfold IndexJob.setColumn at h
  rw [if_neg hc] at h
  split_ifs at h
  all_goals
    obtain rfl := Option.some.inj h
    rfl

theorem setColumns_jobid {j j' : IndexJob} {cs : List (Bytes × Bytes)}
    (h : cs.foldlM IndexJob.setColumn j = some j') (hc : ∀ c ∈ cs, c.1 ≠ ascii "jobid") :
    j'.jobid = j.jobid := by
  induction cs generalizing j with
  | nil => rw [Option.some.inj h]
  | cons c cs ih =>
    rw [List.forall_mem_cons] at hc
    rw [List.foldlM_cons] at h
    obtain ⟨j₁, h₁, h⟩ := Option.bind_eq_some_iff.1 h
    exact (ih h hc.2).trans (setColumn_jobid h₁ hc.1)

/-- An update that does not set the keys of jobs leaves a job that is there. -/
theorem exists_job_execUpdate {sql : Bytes} {db db' : IndexDb} {n : ℕ} (hsql : KeepsJobid sql)
    (h : execUpdate ctx sql db = some (n, db')) {x : Bytes} (hj : ∃ j ∈ db.jobs.rows, j.jobid = x) :
    ∃ j ∈ db'.jobs.rows, j.jobid = x := by
  obtain ⟨u, rows, hu, happly, jobs, rfl, rfl⟩ := execUpdate_eq_some h
  obtain ⟨j, hj, rfl⟩ := hj
  obtain ⟨j', hj', rfl | hset⟩ := Sql.Update.exists_of_apply happly hj
  · exact ⟨j', hj', rfl⟩
  · exact ⟨j', hj', setColumns_jobid hset (hsql u hu)⟩

theorem mem_insertValueRow {id id' : Bytes} {row row' : AttrRow} {db : IndexDb} :
    row' ∈ (insertValueRow id row db).values id' ↔
      row' ∈ db.values id' ∨ id' = id ∧ row' = row := by
  change row' ∈ Function.update db.values id (db.values id ++ [row]) id' ↔ _
  by_cases hid : id' = id
  · subst hid
    simp
  · simp [hid]

/-- What is stored of a value stays. -/
theorem keptByStatements_storedAttr :
    KeptByStatements ctx Set.univ (StoredAttr ctx jobid · attr) where
  job ps jobid owner db db' hdb h := by
    obtain ⟨_, -, rfl⟩ := Option.map_eq_some_iff.1 h
    exact hdb
  user owner db db' hdb h := by
    obtain ⟨_, -, rfl⟩ := Option.map_eq_some_iff.1 h
    exact hdb
  value id row db hdb hk := by
    obtain ⟨av, row', value, hav, hrow, hmem⟩ := hdb hk
    exact ⟨av, row', value, hav, hrow, mem_insertValueRow.2 (.inl hmem)⟩
  column sql _ db n db' hdb h := by
    obtain ⟨_, _, -, -, _, -, rfl⟩ := execUpdate_eq_some h
    exact hdb

/-- A job that is there stays, as long as the keys of jobs are not set. -/
theorem keptByStatements_job {x : Bytes} :
    KeptByStatements ctx {sql | KeepsJobid sql} fun db => ∃ j ∈ db.jobs.rows, j.jobid = x where
  job ps jobid owner db db' hdb h := by
    obtain ⟨j, hj, hkey⟩ := hdb
    obtain ⟨jobs, hjobs, rfl⟩ := Option.map_eq_some_iff.1 h
    refine ⟨j, ?_, hkey⟩
    rw [(Table.insert_eq_some.1 hjobs).2]
    exact List.mem_append_left _ hj
  user owner db db' hdb h := by
    obtain ⟨_, -, rfl⟩ := Option.map_eq_some_iff.1 h
    exact hdb
  value _ _ _ hdb := hdb
  column _ hsql _ _ _ hdb h := exists_job_execUpdate hsql h hdb

/-- What is stored of a record stays, as long as the keys of jobs are not set. -/
theorem keptByStatements_storedRecord :
    KeptByStatements ctx {sql | KeepsJobid sql} (StoredRecord ctx · r) where
  job ps jobid owner db db' hdb h := by
    obtain ⟨x, hx, hjob, hattrs⟩ := hdb
    exact ⟨x, hx, keptByStatements_job.job ps jobid owner db db' hjob h, fun attr hattr =>
      keptByStatements_storedAttr.job ps jobid owner db db' (hattrs attr hattr) h⟩
  user owner db db' hdb h := by
    obtain ⟨_, -, rfl⟩ := Option.map_eq_some_iff.1 h
    exact hdb
  value id row db hdb := by
    obtain ⟨x, hx, hjob, hattrs⟩ := hdb
    exact ⟨x, hx, hjob, fun attr hattr =>
      keptByStatements_storedAttr.value id row db (hattrs attr hattr)⟩
  column sql hsql db n db' hdb h := by
    obtain ⟨x, hx, hjob, hattrs⟩ := hdb
    exact ⟨x, hx, exists_job_execUpdate hsql h hjob, fun attr hattr =>
      keptByStatements_storedAttr.column sql trivial db n db' (hattrs attr hattr) h⟩

end Stays

/-! ## What a call stores -/

section Calls

variable {ctx} {fails : Statement → Bool} {db db' : IndexDb} {i j : ℕ} {ps jobid : Bytes}
  {attr : AttrValue} {attrs : List AttrValue} {r : JobRecord} {rs : List JobRecord}

/-- A value is stored when the operation goes on after it. -/
theorem stored_of_updateAttr (h : updateAttr ctx fails i j jobid attr db = .ok () db') :
    StoredAttr ctx jobid db' attr := by
  intro hk
  obtain ⟨o, db₁, h₁, hrest⟩ := bind_eq_ok.1 h
  obtain ⟨ho, rfl⟩ := liftExec_eq_ok.1 h₁
  rw [if_pos hk] at hrest
  obtain ⟨av, db₂, h₂, hinsert⟩ := bind_eq_ok.1 hrest
  obtain ⟨hav, rfl⟩ := liftExec_eq_ok.1 h₂
  obtain rfl := Exec.deref_eq_ok.1 hav
  obtain ⟨⟨row, value⟩, db₃, h₃, hstmts⟩ := bind_eq_ok.1 hinsert
  obtain ⟨hrow, rfl⟩ := liftExec_eq_ok.1 h₃
  refine ⟨av, row, value, ho, hrow, ?_⟩
  obtain ⟨_, db₄, h₄, hcolumn⟩ := bind_eq_ok.1 hstmts
  have hmem : row ∈ db₄.values (attr2id ctx.md5 av.name) := by
    rw [← (Prod.mk.inj (Option.some.inj (expectOne_eq_ok.1 h₄).2)).2]
    exact mem_insertValueRow.2 (.inr ⟨rfl, rfl⟩)
  split_ifs at hcolumn
  · obtain ⟨-, hupdate⟩ := expectOne_eq_ok.1 hcolumn
    obtain ⟨_, _, -, -, _, -, rfl⟩ := execUpdate_eq_some hupdate
    exact hmem
  · cases hcolumn
    exact hmem

theorem stored_of_updateAttrs (h : updateAttrs ctx fails i jobid j attrs db = .ok () db') :
    ∀ attr ∈ attrs, StoredAttr ctx jobid db' attr := by
  induction attrs generalizing j db with
  | nil => exact fun _ h => nomatch h
  | cons attr attrs ih =>
    obtain ⟨_, db₁, h₁, h₂⟩ := bind_eq_ok.1 h
    refine List.forall_mem_cons.2 ⟨?_, ih h₂⟩
    -- the values behind it leave it stored
    have hkeeps : Keeps (StoredAttr ctx jobid · attr)
        (updateAttrs ctx fails i jobid (j + 1) attrs) :=
      keptByStatements_storedAttr.updateAttrs (Set.subset_univ _)
    have hkept := hkeeps db₁ (stored_of_updateAttr h₁)
    rwa [h₂] at hkept

/-- A job is there when the operation goes on after it, and its query has not
    failed. -/
theorem job_of_lazyInsertJob {o owner : Option Bytes} (hq : fails (.selectJobid i) = false)
    (h : lazyInsertJob ctx fails i ps o owner db = .ok () db') :
    ∃ jobid, o = some jobid ∧ ∃ j ∈ db'.jobs.rows, j.jobid = ctx.md5 jobid := by
  obtain ⟨jobid, cert, rfl, rfl⟩ := lazyInsertJob_some h
  refine ⟨jobid, rfl, ?_⟩
  obtain ⟨_, db₁, h₁, h₂⟩ := bind_eq_ok.1 h
  have hjob : ∃ j ∈ db₁.jobs.rows, j.jobid = ctx.md5 jobid := by
    rw [lazyInsert_eq] at h₁
    split_ifs at h₁ with hc
    · obtain ⟨-, hstmt⟩ := expectOne_eq_ok.1 h₁
      obtain ⟨db₂, hinsert, heq⟩ := Option.map_eq_some_iff.1 hstmt
      obtain ⟨jobs, hjobs, rfl⟩ := Option.map_eq_some_iff.1 hinsert
      rw [← (Prod.mk.inj heq).2]
      refine ⟨⟨ctx.md5 jobid, jobid, ctx.md5 cert, ps, newColumns ctx⟩, ?_, rfl⟩
      rw [(Table.insert_eq_some.1 hjobs).2]
      exact List.mem_append_right _ (List.mem_singleton_self _)
    · cases h₁
      obtain ⟨j, hj, hkey⟩ := List.countP_pos_iff.1
        (Nat.pos_of_ne_zero fun h0 => hc ⟨hq, h0⟩)
      exact ⟨j, hj, of_decide_eq_true hkey⟩
  have hkeeps : Keeps (fun db => ∃ j ∈ db.jobs.rows, j.jobid = ctx.md5 jobid)
      (lazyInsert fails (.selectUser i) (.insertUser i) (·.countUsers (ctx.md5 cert))
        (insertUserRow ctx cert)) :=
    keeps_lazyInsert (keptByStatements_job.user cert)
  have hkept := hkeeps db₁ hjob
  rwa [h₂] at hkept

theorem stored_of_updateJob (hq : fails (.selectJobid i) = false)
    (ht : columnTexts ctx (r.jobid.getD []) r.attributes ⊆ {sql | KeepsJobid sql})
    (h : updateJob ctx fails i ps r db = .ok () db') : StoredRecord ctx db' r := by
  have hr : r.remove ≠ some true := by
    intro hr
    rw [updateJob, if_pos hr] at h
    cases h
  rw [updateJob_eq hr] at h
  obtain ⟨_, db₁, h₁, h₂⟩ := bind_eq_ok.1 h
  obtain ⟨jobid, hjobid, hjob⟩ := job_of_lazyInsertJob hq h₁
  rw [hjobid, Option.getD_some] at h₂ ht
  have hkeeps : Keeps (fun db => ∃ j ∈ db.jobs.rows, j.jobid = ctx.md5 jobid)
      (updateAttrs ctx fails i jobid 0 r.attributes) := keptByStatements_job.updateAttrs ht
  have hkept := hkeeps db₁ hjob
  rw [h₂] at hkept
  exact ⟨jobid, hjobid, hkept, stored_of_updateAttrs h₂⟩

/-- What a call stores whose queries for jobs do not fail, and that gets to its end. -/
theorem stored_of_updateRecords (hq : ∀ k, fails (.selectJobid k) = false)
    (ht : ∀ r ∈ rs, columnTexts ctx (r.jobid.getD []) r.attributes ⊆ {sql | KeepsJobid sql})
    (h : updateRecords ctx fails ps i rs db = .ok () db') : ∀ r ∈ rs, StoredRecord ctx db' r := by
  induction rs generalizing i db with
  | nil => exact fun _ h => nomatch h
  | cons r rs ih =>
    rw [List.forall_mem_cons] at ht
    obtain ⟨_, db₁, h₁, h₂⟩ := bind_eq_ok.1 h
    refine List.forall_mem_cons.2 ⟨?_, ih ht.2 h₂⟩
    -- the records behind it leave it stored
    have hkeeps : Keeps (StoredRecord ctx · r) (updateRecords ctx fails ps (i + 1) rs) :=
      keptByStatements_storedRecord.updateRecords ht.2
    have hkept := hkeeps db₁ (stored_of_updateJob (hq i) ht.1 h₁)
    rwa [h₂] at hkept

/-- What the statements of a call keep, and what does not depend on the feeds, the call
    keeps. -/
theorem keeps_updateJobs {I : IndexDb → Prop} {texts : Set Bytes} {msg : UpdateJobs}
    (h : KeptByStatements ctx texts I) (hfeeds : ∀ db feeds, I db → I { db with feeds })
    (ht : ∀ r ∈ msg.jobAttributes, columnTexts ctx (r.jobid.getD []) r.attributes ⊆ texts) :
    Keeps I (updateJobs ctx fails msg) := by
  have hselect : Keeps I (selectInfoFeed fails msg.feedId) := by
    intro db hdb
    rw [selectInfoFeed]
    split <;> exact hdb
  have hmark : ∀ feed, Keeps I (markDone fails feed msg.feedDone) := by
    intro feed
    rw [markDone]
    split_ifs
    · refine keeps_expectOne fun db n db' hdb hstmt => ?_
      rw [← (Prod.mk.inj (Option.some.inj hstmt)).2]
      exact hfeeds db _ hdb
    · exact .pure _
  exact hselect.bind fun feed => (hmark feed).bind fun _ => h.updateRecords ht

/-- A call changes the feeds only to set a flag. -/
theorem setsDone_of_updateJobs {a : ServedCall} :
    (left (updateJobs ctx a.fails a.msg db)).feeds = db.feeds ∨ SetsDone db a := by
  rw [updateJobs, bind_eq, selectInfoFeed]
  cases hsel : a.fails .selectInfoFeed with
  | true => exact .inl rfl
  | false =>
    rw [if_neg Bool.false_ne_true]
    cases hfeed : db.feed a.msg.feedId with
    | none => exact .inl rfl
    | some feed =>
      by_cases hset : (a.msg.feedDone = true ∧ feed.state &&& GLITE_JP_IS_STATE_DONE = 0) ∧
          a.fails .updateStateFeed = false
      · exact .inr ⟨hsel, hset.1.1, hset.2, feed, hfeed, hset.1.2⟩
      · refine .inl ?_
        have hmark : Keeps (fun d => d.feeds = db.feeds) (markDone a.fails feed a.msg.feedDone) := by
          rw [markDone]
          split_ifs with hd
          · have hfails : a.fails .updateStateFeed = true := by
              by_contra hf
              exact hset ⟨hd, by simpa using hf⟩
            intro d hd'
            rw [expectOne_eq, hfails]
            exact hd'
          · exact .pure _
        have hrecords : Keeps (fun d => d.feeds = db.feeds)
            (updateRecords ctx a.fails feed.source 0 a.msg.jobAttributes) :=
          keptByStatements_feeds.updateRecords fun _ _ => Set.subset_univ _
        exact (hmark.bind fun _ => hrecords) db rfl

variable {s t : IndexDb × DeliveryRecord} {a : ServedCall}

theorem DoneDelivered.step (hs : DoneDelivered ctx s) (ha : Completes ctx s a)
    (hst : (servingSystem ctx).step s a t) : DoneDelivered ctx t := by
  obtain ⟨fails, msg⟩ := a
  have hleft : t.1 = left (updateJobs ctx fails msg s.1) := hst.1
  have hrec : t.2 = DeliveryRecord.next s.1 ⟨fails, msg⟩ t.1 s.2 := hst.2
  intro u msg' hu hflag r hr
  rw [hrec] at hu
  unfold DeliveryRecord.next at hu
  split_ifs at hu with hon
  · -- the message has set the flag, so the call has got to its end
    obtain ⟨hbefore, -⟩ := Bool.and_eq_true_iff.1 hon
    obtain rfl := Option.some.inj hu
    have hsets : SetsDone s.1 ⟨fails, msg⟩ := by
      refine (@setsDone_of_updateJobs ctx s.1 ⟨fails, msg⟩).resolve_left fun hsame => ?_
      rw [hleft, hsame] at hflag
      rw [hflag] at hbefore
      cases hbefore
    obtain ⟨hnever, haccepts⟩ := ha.1 hsets
    obtain rfl : fails = never := funext hnever
    obtain ⟨db', hok⟩ := updateJobs_never.2 haccepts
    rw [hleft, hok, left_ok]
    obtain ⟨feed, db₁, -, hrest⟩ := bind_eq_ok.1 hok
    obtain ⟨_, db₂, -, hrecords⟩ := bind_eq_ok.1 hrest
    exact stored_of_updateRecords (fun _ => rfl) ha.2 hrecords r hr
  · -- the flag was set before, and what was stored then stays
    have hbefore : hasFlag GLITE_JP_IS_STATE_DONE s.1.feeds u = true := by
      by_contra hnot
      exact hon (Bool.and_eq_true_iff.2 ⟨by simpa using hnot, hflag⟩)
    have hkeeps : Keeps (StoredRecord ctx · r) (updateJobs ctx fails msg) :=
      keeps_updateJobs keptByStatements_storedRecord (fun _ _ h => h) ha.2
    rw [hleft]
    exact hkeeps s.1 (hs u msg' hu hbefore r hr)

/-- As long as the calls that set the flag `DONE` get to their end, and no update sets
    the key of a job, what the flag says is true: the records of the message that has set
    it are stored. -/
theorem delivered_of_reachable (h : (servingSystem ctx).Reachable (Completes ctx) s) :
    DoneDelivered ctx s := by
  refine h.invariant (fun s h₀ u msg hu => ?_) fun s a t hs ha hst => hs.step ha hst
  have hrec : s.2 = fun _ => none := h₀.2
  rw [hrec] at hu
  cases hu

end Calls

/-! ## A flag that is set too early -/

/-- A call with the last message of a history, of a job with a value. -/
def lastCall (fails : Statement → Bool) : ServedCall :=
  ⟨fails, sampleUpdate [sampleColor (ascii "red")]⟩

/-- The server after the call. -/
def afterLastCall (fails : Statement → Bool) : IndexDb × DeliveryRecord :=
  let db := left (updateJobs (sampleServer true) fails (lastCall fails).msg sampleFed)
  (db, DeliveryRecord.next sampleFed (lastCall fails) db fun _ => none)

theorem reachable_afterLastCall {fails : Statement → Bool}
    {ok : IndexDb × DeliveryRecord → ServedCall → Prop}
    (h : ok (sampleFed, fun _ => none) (lastCall fails)) :
    (servingSystem (sampleServer true)).Reachable ok (afterLastCall fails) :=
  ⟨(sampleFed, fun _ => none), ⟨trivial, rfl⟩, (System.Steps.refl _).tail h ⟨rfl, rfl⟩⟩

theorem completes_lastCall :
    Completes (sampleServer true) (sampleFed, fun _ => none) (lastCall never) := by
  refine ⟨fun _ => ⟨fun _ => rfl, updateJobs_never.1 ⟨_, eq_ok_left ?_⟩⟩, ?_⟩
  · decide +kernel
  · -- the server has no columns of attributes
    rintro r - sql ⟨attr, -, av, row, value, -, -, -, hcolumn, -⟩
    simp [hasColumn, isQueriable, findAttr, sampleServer] at hcolumn

theorem delivered_of_reachable_sample : ∃ s,
    (servingSystem (sampleServer true)).Reachable (Completes (sampleServer true)) s ∧
      s.2 1 = some (lastCall never).msg ∧ DoneDelivered (sampleServer true) s := by
  have hreach := reachable_afterLastCall completes_lastCall
  exact ⟨_, hreach, by decide +kernel, delivered_of_reachable hreach⟩

/-- The value cannot be inserted, but the flag is set. -/
theorem cut_afterLastCall :
    (afterLastCall (only (.insertAttrval 0 0))).2 1 = some (lastCall never).msg ∧
      hasFlag GLITE_JP_IS_STATE_DONE (afterLastCall (only (.insertAttrval 0 0))).1.feeds 1 = true ∧
      (afterLastCall (only (.insertAttrval 0 0))).1.values
        (attr2id (sampleServer true).md5 sampleAttr) = [] := by
  decide +kernel

/-- The flag is set, and the value is not stored. -/
theorem not_delivered_sample : ∃ s,
    (servingSystem (sampleServer true)).Reachable System.Always s ∧
      ¬DoneDelivered (sampleServer true) s := by
  have hreach : (servingSystem (sampleServer true)).Reachable System.Always
      (afterLastCall (only (.insertAttrval 0 0))) := reachable_afterLastCall trivial
  obtain ⟨hmsg, hflag, hvalues⟩ := cut_afterLastCall
  refine ⟨_, hreach, fun h => ?_⟩
  obtain ⟨jobid, -, -, hattrs⟩ := h 1 _ hmsg hflag _ List.mem_cons_self
  obtain ⟨av, row, value, hav, -, hmem⟩ := hattrs _ List.mem_cons_self (by decide +kernel)
  have hname : av.name = sampleAttr := soapToAttrVal_name hav
  rw [hname, hvalues] at hmem
  cases hmem

end JobProvenance
