import JobProvenance.Feed.Handshake
import JobProvenance.Index.FedAnswers
import JobProvenance.Primary.Provenance

/-!
# From the primary storage to the answer

An index server that has got all of its messages from one primary storage. What it stores
comes from the records of these messages, also when a statement fails and the rest of a
message is given up; and the records have values of their own jobs only. So a client gets
of the index server what the primary storage has of the jobs of this client.

* `ContentsOf`: the rows are those of records, and `keeps_updateJob`: they stay so when a
  record is stored, however that ends;
* `EndToEnd.step`: a step of one of the servers, or of the wire;
* `stored_of_reachable`: what the tables of the index server have;
* `answers_of_owner`: what a client is answered.
-/

namespace JobProvenance

/-! ## What is stored -/

section Contents

open Stateful

variable {ctx : IndexContext} {rs rs' : List JobRecord} {db db' : IndexDb} {r : JobRecord}
  {fails : Statement → Bool} {i j : ℕ} {ps jobid owner : Bytes} {attrs : List AttrValue}

/-- The values of a record can be stored and read back. -/
def JobRecord.Sendable (ctx : IndexContext) (r : JobRecord) : Prop :=
  ∀ v ∈ r.attributes, v.Sendable ctx

/-- A row has the value of a record for its job. -/
def StoredValue (ctx : IndexContext) (rs : List JobRecord) (id : Bytes) (row : AttrRow) : Prop :=
  ∃ r ∈ rs, ∃ v ∈ r.attributes, ∃ job, r.jobid = some job ∧ v.Sendable ctx ∧
    attr2id ctx.md5 v.name = id ∧ RowOf ctx (job, v) row

/-- A job is that of a record, with its owner. -/
def StoredJob (ctx : IndexContext) (rs : List JobRecord) (job : IndexJob) : Prop :=
  job.jobid = ctx.md5 job.dgJobid ∧ ∃ r ∈ rs, ∃ owner, r.jobid = some job.dgJobid ∧
    r.owner = some owner ∧ job.ownerid = ctx.md5 owner

/-- What a database has is that of records. -/
structure ContentsOf (ctx : IndexContext) (rs : List JobRecord) (db : IndexDb) : Prop where
  jobs : ∀ job ∈ db.jobs.rows, StoredJob ctx rs job
  users : ∀ user ∈ db.users.rows, user.userid = ctx.md5 user.certSubj
  values : ∀ id, ∀ row ∈ db.values id, StoredValue ctx rs id row

theorem ContentsOf.mono (h : ContentsOf ctx rs db) (hrs : ∀ r ∈ rs, r ∈ rs') :
    ContentsOf ctx rs' db where
  jobs job hjob :=
    let ⟨hid, r, hr, hrest⟩ := h.jobs job hjob
    ⟨hid, r, hrs r hr, hrest⟩
  users := h.users
  values id row hrow :=
    let ⟨r, hr, hrest⟩ := h.values id row hrow
    ⟨r, hrs r hr, hrest⟩

/-- The jobs stay but for their columns of attributes, and so do the contents. -/
theorem ContentsOf.congr (h : ContentsOf ctx rs db) (hjobs : SameJobs db db')
    (hvalues : db'.values = db.values) : ContentsOf ctx rs db' where
  jobs job' hjob' := by
    obtain ⟨job, hjob, hid, hdg, howner⟩ := hjobs.2 job' hjob'
    rw [StoredJob, hid, hdg, howner]
    exact h.jobs job hjob
  users user huser := h.users user (hjobs.1 ▸ huser)
  values id row hrow := h.values id row (hvalues ▸ hrow)

theorem contentsOf_insertJobRow (hr : r ∈ rs) (hjobid : r.jobid = some jobid)
    (howner : r.owner = some owner) (hdb : ContentsOf ctx rs db)
    (h : insertJobRow ctx ps jobid owner db = some db') : ContentsOf ctx rs db' := by
  obtain ⟨jobs, hjobs, rfl⟩ := Option.map_eq_some_iff.1 h
  refine ⟨fun job hjob => ?_, hdb.users, hdb.values⟩
  change job ∈ jobs.rows at hjob
  rw [(Table.insert_eq_some.1 hjobs).2] at hjob
  obtain hold | hnew := List.mem_append.1 hjob
  · exact hdb.jobs job hold
  · obtain rfl := List.mem_singleton.1 hnew
    exact ⟨rfl, r, hr, owner, hjobid, howner, rfl⟩

theorem contentsOf_insertUserRow (hdb : ContentsOf ctx rs db)
    (h : insertUserRow ctx owner db = some db') : ContentsOf ctx rs db' := by
  obtain ⟨users, husers, rfl⟩ := Option.map_eq_some_iff.1 h
  refine ⟨hdb.jobs, fun user huser => ?_, hdb.values⟩
  change user ∈ users.rows at huser
  rw [(Table.insert_eq_some.1 husers).2] at huser
  obtain hold | hnew := List.mem_append.1 huser
  · exact hdb.users user hold
  · obtain rfl := List.mem_singleton.1 hnew
    rfl

theorem contentsOf_insertValueRow {id : Bytes} {row : AttrRow} (hdb : ContentsOf ctx rs db)
    (hrow : StoredValue ctx rs id row) : ContentsOf ctx rs (insertValueRow id row db) := by
  refine ⟨hdb.jobs, hdb.users, fun id' row' hrow' => ?_⟩
  change row' ∈ Function.update db.values id (db.values id ++ [row]) id' at hrow'
  by_cases hid : id' = id
  · subst hid
    rw [Function.update_self] at hrow'
    obtain hold | hnew := List.mem_append.1 hrow'
    · exact hdb.values id' row' hold
    · exact List.mem_singleton.1 hnew ▸ hrow
  · rw [Function.update_of_ne hid] at hrow'
    exact hdb.values id' row' hrow'

/-- A value of a record is stored, or not. -/
theorem keeps_updateAttr (hplugins : ctx.plugins = []) (hr : r ∈ rs) (hjobid : r.jobid = some jobid)
    {v : AttrValue} (hv : v ∈ r.attributes) (hsend : v.Sendable ctx) :
    Keeps (ContentsOf ctx rs) (updateAttr ctx fails i j jobid v) := by
  refine keeps_liftExec_bind fun o ho => ?_
  split_ifs
  · refine keeps_liftExec_bind fun av hav => ?_
    obtain rfl := Exec.deref_eq_ok.1 hav
    refine keeps_liftExec_bind fun (row, value) hrow => ?_
    have hname := soapToAttrVal_name ho
    refine (keeps_expectOne fun db n db' hdb hstmt => ?_).bind fun _ => ?_
    · rw [← (Prod.mk.inj (Option.some.inj hstmt)).2]
      exact contentsOf_insertValueRow hdb
        ⟨r, hr, v, hv, jobid, hjobid, hsend, by rw [hname], av, value, ho, hrow⟩
    · split_ifs with hcol
      · refine keeps_expectOne fun db n db' hdb hstmt => hdb.congr
          (sameJobs_of_execUpdate (fun _ => isHexDigit_of_mem_attr2id) ?_ hstmt)
          (execUpdate_values hstmt)
        exact verbatim_of_attrvalRow hplugins hsend (hname ▸ hcol) ho hrow
      · exact .pure _
  · exact .pure _

theorem keeps_updateAttrs (hplugins : ctx.plugins = []) (hr : r ∈ rs)
    (hjobid : r.jobid = some jobid) (hsend : r.Sendable ctx)
    (hattrs : ∀ v ∈ attrs, v ∈ r.attributes) :
    Keeps (ContentsOf ctx rs) (updateAttrs ctx fails i jobid j attrs) := by
  induction attrs generalizing j with
  | nil => exact .pure _
  | cons v attrs ih =>
    rw [List.forall_mem_cons] at hattrs
    exact (keeps_updateAttr hplugins hr hjobid hattrs.1 (hsend v hattrs.1)).bind
      fun _ => ih hattrs.2

/-- A record is stored, or a part of it. -/
theorem keeps_updateJob (hplugins : ctx.plugins = []) (hr : r ∈ rs) (hsend : r.Sendable ctx) :
    Keeps (ContentsOf ctx rs) (updateJob ctx fails i ps r) := by
  rw [updateJob]
  split_ifs
  · exact .throw _
  · -- without a job or an owner, nothing is stored of the record
    cases hjobid : r.jobid with
    | none => exact fun _ hdb => hdb
    | some jobid =>
      cases howner : r.owner with
      | none => exact fun _ hdb => hdb
      | some owner =>
        refine Keeps.bind ?_ fun _ => keeps_updateAttrs hplugins hr hjobid hsend fun _ => id
        exact (keeps_lazyInsert fun _ _ => contentsOf_insertJobRow hr hjobid howner).bind
          fun _ => keeps_lazyInsert fun _ _ => contentsOf_insertUserRow

/-! ## Slaves of the index server -/

/-- What a slave has left of a message is of records that can be stored. -/
def UpdatePhase.Of (ctx : IndexContext) (rs : List JobRecord) : UpdatePhase → Prop
  | .idle => True
  | .mark _ msg => ∀ r ∈ msg.jobAttributes, r ∈ rs ∧ r.Sendable ctx
  | .store _ _ records => ∀ r ∈ records, r ∈ rs ∧ r.Sendable ctx

theorem UpdatePhase.Of.mono {phase : UpdatePhase} (h : phase.Of ctx rs) (hrs : ∀ r ∈ rs, r ∈ rs') :
    phase.Of ctx rs' := by
  cases phase with
  | idle => trivial
  | mark feed msg => exact fun r hr => (h r hr).imp_left (hrs r)
  | store ps ijobs records => exact fun r hr => (h r hr).imp_left (hrs r)

/-- A step of a slave. -/
theorem contentsOf_slaveStep (hplugins : ctx.plugins = []) {a : SlaveAction}
    {phase phase' : UpdatePhase} (hselect : ∀ fails msg, a = .select fails msg →
      ∀ r ∈ msg.jobAttributes, r ∈ rs ∧ r.Sendable ctx)
    (hphase : phase.Of ctx rs) (hdb : ContentsOf ctx rs db)
    (h : slaveStep ctx db a phase = some (db', phase')) :
    ContentsOf ctx rs db' ∧ phase'.Of ctx rs := by
  unfold slaveStep at h
  split at h
  case h_1 fails msg =>
    obtain ⟨rfl, hnext⟩ := followedBy_eq h
    refine ⟨?_, ?_⟩
    · rw [selectInfoFeed]
      split <;> exact hdb
    · obtain rfl | ⟨feed, -, rfl⟩ := hnext
      · trivial
      · exact hselect fails msg rfl
  case h_2 fails feed msg =>
    obtain ⟨rfl, hnext⟩ := followedBy_eq h
    refine ⟨?_, ?_⟩
    · -- marking a feed leaves the other tables alone
      have hmark : Keeps (ContentsOf ctx rs) (markDone fails feed msg.feedDone) := by
        rw [markDone]
        split_ifs
        · refine keeps_expectOne fun db n db' hdb hstmt => ?_
          rw [← (Prod.mk.inj (Option.some.inj hstmt)).2]
          exact ⟨hdb.jobs, hdb.users, hdb.values⟩
        · exact .pure _
      exact hmark db hdb
    · obtain rfl | ⟨-, -, rfl⟩ := hnext
      · trivial
      · exact hphase
  case h_3 fails ps ijobs r rs' =>
    obtain ⟨rfl, hnext⟩ := followedBy_eq h
    obtain ⟨⟨hr, hsend⟩, hrest⟩ := List.forall_mem_cons.1 hphase
    refine ⟨keeps_updateJob hplugins hr hsend db hdb, ?_⟩
    obtain rfl | ⟨-, -, rfl⟩ := hnext
    · trivial
    · exact hrest
  case h_4 =>
    obtain ⟨rfl, rfl⟩ := Prod.mk.inj (Option.some.inj h)
    exact ⟨hdb, trivial⟩
  case h_5 => cases h

end Contents

/-! ## The two servers -/

section Servers

variable {H : Type} (conf : FeedingConf) (ctx : IndexContext) (env : Env)
  (plugins : List (FilePlugin H))

/-- The records that were sent. -/
def sentRecords (s : ServerState) : List JobRecord := s.ps.sent.flatMap (·.msg.jobAttributes)

/-- What the primary storage does in a step. -/
def HandshakeAction.served (s : HandshakeState) : HandshakeAction → Option ServerAction
  | .ps a => some a
  | .answer pid i now buf =>
    match (s.index.feeders pid).phase with
    | .call _ _ _ (.feedIndex _ req) => some (.request i now (.feedIndex buf req))
    | _ => none
  | _ => none

/-- The servers, with the history of the primary storage; the index server has no jobs at
    first. -/
def endToEndSystem : System (HandshakeState × Past) HandshakeAction where
  init s := (twoServers conf ctx env plugins).init s.1 ∧ s.1.index.db.jobs.rows = [] ∧
    s.1.index.db.users.rows = [] ∧ (∀ id, s.1.index.db.values id = []) ∧ s.2 = []
  step s a t := handshakeStep conf ctx env plugins s.1 a = some t.1 ∧
    t.2 = s.2 ++ (a.served s.1).toList.map (s.1.ps, ·)

/-- No messages come to the slaves of the index server but those of the primary storage, and
    the values that arrive can be stored. -/
def FedByPrimary (s : HandshakeState × Past) : HandshakeAction → Prop
  | .index (.slave _ (.select _ _)) => False
  | .arrive i _ _ => ∀ m ∈ (s.1.flight i).head?, ∀ r ∈ m.msg.jobAttributes, r.Sendable ctx
  | _ => True

/-- What the primary storage sends is own, and the index server has only what was sent. -/
structure EndToEnd (s : HandshakeState × Past) : Prop where
  primary : OwnServer env plugins (s.1.ps, s.2)
  flight : ∀ i, ∀ m ∈ s.1.flight i, m ∈ s.1.ps.ps.sent
  contents : ContentsOf ctx (sentRecords s.1.ps) s.1.index.db
  slaves : ∀ sid, (s.1.index.slaves sid).Of ctx (sentRecords s.1.ps)

variable {conf ctx env plugins} {s t : HandshakeState} {past : Past}

/-- What the primary storage does. -/
theorem EndToEnd.psStep {b : ServerAction} (hs : EndToEnd ctx env plugins (s, past))
    (h : psStep conf env plugins s b = some t) :
    EndToEnd ctx env plugins (t, past ++ [(s.ps, b)]) := by
  obtain ⟨ps, hstep, rfl⟩ := psStep_eq_some h
  obtain ⟨hps, hindex, -⟩ := @HandshakeState.setPs_frame conf s b ps
  have hsent : ∀ {m : Sent}, m ∈ ps.ps.sent ↔ m ∈ s.ps.ps.sent ∨
      m ∈ ps.ps.sent.drop s.ps.ps.sent.length := mem_newMessages (sent_of_serverStep hstep)
  have hrecords : ∀ r ∈ sentRecords s.ps, r ∈ sentRecords ps := fun r hr => by
    obtain ⟨m, hm, hr⟩ := List.mem_flatMap.1 hr
    exact List.mem_flatMap.2 ⟨m, hsent.2 (.inl hm), hr⟩
  refine ⟨?_, fun i m hm => ?_, ?_, fun sid => ?_⟩
  · rw [hps]
    exact hs.primary.step ⟨hstep, rfl⟩
  · rw [hps]
    obtain hold | ⟨-, hnew⟩ := HandshakeState.mem_flight_setPs.1 hm
    · exact hsent.2 (.inl (hs.flight i m hold))
    · exact hsent.2 (.inr (List.mem_filter.1 hnew).1)
  · rw [hps, hindex]
    exact hs.contents.mono hrecords
  · rw [hps, hindex]
    exact (hs.slaves sid).mono hrecords

/-- What a process of the index server does, that takes no message or one that was sent. -/
theorem EndToEnd.indexStep {b : IndexAction} {index : IndexState}
    {answers : ℕ → Option (Bytes × ℤ)} {flight : ℕ → List Sent} (hplugins : ctx.plugins = [])
    (hs : EndToEnd ctx env plugins (s, past)) (hflight : ∀ i, ∀ m ∈ flight i, m ∈ s.ps.ps.sent)
    (hselect : ∀ sid fails msg, b = .slave sid (.select fails msg) →
      ∀ r ∈ msg.jobAttributes, r ∈ sentRecords s.ps ∧ r.Sendable ctx)
    (h : indexStep conf ctx s.index b = some index) :
    EndToEnd ctx env plugins (⟨s.ps, index, answers, flight⟩, past) := by
  cases b with
  | feeder pid b =>
    obtain ⟨feeds, p, -, -, rfl⟩ := indexStep_feeder h
    exact ⟨hs.primary, hflight, ⟨hs.contents.jobs, hs.contents.users, hs.contents.values⟩,
      hs.slaves⟩
  | slave sid b =>
    obtain ⟨db, phase, hstep, rfl⟩ := indexStep_slave h
    obtain ⟨hdb, hphase⟩ := contentsOf_slaveStep hplugins
      (fun fails msg hb => hselect sid fails msg (hb ▸ rfl)) (hs.slaves sid) hs.contents hstep
    refine ⟨hs.primary, hflight, hdb, fun sid' => ?_⟩
    change (Function.update s.index.slaves sid phase sid').Of ctx (sentRecords s.ps)
    by_cases hsid : sid' = sid
    · subst hsid
      rw [Function.update_self]
      exact hphase
    · rw [Function.update_of_ne hsid]
      exact hs.slaves sid'

theorem EndToEnd.step {a : HandshakeAction} (hplugins : ctx.plugins = [])
    (hs : EndToEnd ctx env plugins (s, past)) (ha : FedByPrimary ctx (s, past) a)
    (h : handshakeStep conf ctx env plugins s a = some t) :
    EndToEnd ctx env plugins (t, past ++ (a.served s).toList.map (s.ps, ·)) := by
  have hnil : past ++ (none : Option ServerAction).toList.map (s.ps, ·) = past := List.append_nil _
  cases a with
  | ps b => exact hs.psStep h
  | answer pid i now buf =>
    rw [handshakeStep] at h
    split at h
    · rename_i hphase
      obtain ⟨t', hstep, h⟩ := Option.bind_eq_some_iff.1 h
      obtain ⟨-, h⟩ := Option.ite_none_right_eq_some.1 h
      obtain rfl := Option.some.inj h
      have ht := hs.psStep hstep
      rw [HandshakeAction.served, hphase]
      exact ⟨ht.primary, ht.flight, ht.contents, ht.slaves⟩
    · cases h
  | index b =>
    obtain ⟨index, hindex, rfl⟩ := Option.map_eq_some_iff.1 h
    refine hnil.symm ▸ hs.indexStep hplugins hs.flight (fun sid fails msg hb => ?_) hindex
    subst hb
    exact ha.elim
  | receive pid now =>
    obtain ⟨answer, -, h⟩ := Option.bind_eq_some_iff.1 h
    obtain ⟨index, hindex, h⟩ := Option.bind_eq_some_iff.1 h
    obtain rfl := Option.some.inj h
    exact hnil.symm ▸ hs.indexStep hplugins hs.flight (fun _ _ _ hb => by cases hb) hindex
  | arrive i sid fails =>
    rw [handshakeStep] at h
    split at h
    · cases h
    · rename_i m ms hflight
      split_ifs at h
      obtain ⟨index, hindex, rfl⟩ := Option.map_eq_some_iff.1 h
      have hhead : m ∈ s.ps.ps.sent := hs.flight i m (hflight ▸ List.mem_cons_self)
      refine hnil.symm ▸ hs.indexStep hplugins (fun j m' hm' => ?_)
        (fun sid' fails' msg hb r hr => ?_) hindex
      · by_cases hj : j = i
        · subst hj
          rw [Function.update_self] at hm'
          exact hs.flight j m' (hflight ▸ List.mem_cons_of_mem _ hm')
        · rw [Function.update_of_ne hj] at hm'
          exact hs.flight j m' hm'
      · cases hb
        refine ⟨List.mem_flatMap.2 ⟨m, hhead, hr⟩, ha m ?_ r hr⟩
        rw [hflight]
        rfl

/-- In every run, whatever statements fail, the tables of the index server have what the
    primary storage has sent, and that has only what is own. -/
theorem endToEnd_of_reachable (hplugins : ctx.plugins = []) {s : HandshakeState × Past}
    (h : (endToEndSystem conf ctx env plugins).Reachable (FedByPrimary ctx) s) :
    EndToEnd ctx env plugins s := by
  refine h.invariant (fun s h₀ => ?_) fun s a t hs ha hstep => ?_
  · obtain ⟨s, past⟩ := s
    obtain ⟨⟨⟨hsent, -, -, hslaves, -⟩, ⟨-, hidle⟩, -, hflight⟩, hjobs, husers, hvalues, -⟩ := h₀
    refine ⟨⟨fun m hm => ?_, fun i slave hslave => ?_⟩, fun i m hm => ?_,
      ⟨fun job hjob => ?_, fun user huser => ?_, fun id row hrow => ?_⟩, fun sid => ?_⟩
    · rw [hsent] at hm
      cases hm
    · cases (hslaves i).symm.trans hslave
    · rw [hflight] at hm
      cases hm
    · rw [hjobs] at hjob
      cases hjob
    · rw [husers] at huser
      cases huser
    · rw [hvalues] at hrow
      cases hrow
    · rw [hidle]
      trivial
  · obtain ⟨s, past⟩ := s
    obtain ⟨t, past'⟩ := t
    obtain ⟨hstep, rfl⟩ : handshakeStep conf ctx env plugins s a = some t ∧
      past' = past ++ (a.served s).toList.map (s.ps, ·) := hstep
    exact hs.step hplugins ha hstep

end Servers

/-! ## What a client is answered -/

section Answers

variable {H : Type} {conf : FeedingConf} {ctx : IndexContext} {env : Env}
  {plugins : List (FilePlugin H)} {fromDb : TplugData → Option (Bytes → Exec Attrval)}
  {s : HandshakeState × Past} {rs : List JobRecord} {db : IndexDb} {req : QueryJobs}
  {peer jobid attr : Bytes} {v : AttrValue} {r : JobRecord}

/-- The owners of records. -/
def ownersOf (rs : List JobRecord) : Set Bytes := {x | ∃ r ∈ rs, r.owner = some x}

/-- The context of a client. -/
def IndexContext.forPeer (ctx : IndexContext) (peer : Bytes) : IndexContext :=
  { ctx with peer := some peer }

/-- What was stored in the context of one client is so in that of another. -/
theorem ContentsOf.forPeer (h : ContentsOf ctx rs db) (peer : Bytes) :
    ContentsOf (ctx.forPeer peer) rs db where
  jobs := h.jobs
  users := h.users
  values id row hrow :=
    let ⟨r, hr, v, hv, job, hjob, hsend, hid, hrowOf⟩ := h.values id row hrow
    ⟨r, hr, v, hv, job, hjob, ⟨hsend.name_nul, hsend.value_nul, hsend.size_lt, hsend.detail_nul,
      hsend.time_ge, hsend.time_lt, hsend.harmless⟩, hid, hrowOf⟩

/-- What a value says was said of a job at the primary storage, but for the case of the name. -/
def SaidOf (env : Env) (plugins : List (FilePlugin H)) (past : Past) (job : Bytes) (v : AttrValue) :
    Prop :=
  ∃ w u, Source env plugins past job w ∧ jp2sAttrValue w = .ok u ∧
    sameIgnoringCase u.name v.name = true ∧ v.content = u.content

/-- An answer is about a job that is registered for a client, and it has what was asked for of
    this job. -/
def AnswersOwner (env : Env) (plugins : List (FilePlugin H)) (s : HandshakeState × Past)
    (req : QueryJobs) (peer : Bytes) (answer : JobRecord) : Prop :=
  ∃ job, answer.jobid = some job ∧ answer.owner = some peer ∧
    RegisteredFor s.1.ps.ps.tables job peer ∧
    ∀ v ∈ answer.attributes, some v.name ∈ req.attributes ∧ SaidOf env plugins s.2 job v

/-- A record that was sent is own. -/
theorem EndToEnd.own (hs : EndToEnd ctx env plugins s) (hr : r ∈ sentRecords s.1.ps) :
    ∃ job owner, r.jobid = some job ∧ r.owner = some owner ∧
      RegisteredFor s.1.ps.ps.tables job owner ∧
      ∀ u ∈ r.attributes, ∃ w, Source env plugins s.2 job w ∧ jp2sAttrValue w = .ok u := by
  obtain ⟨m, hm, hr⟩ := List.mem_flatMap.1 hr
  obtain ⟨job, owner, attrs, ⟨hreg, hsource⟩, hrec⟩ := hs.primary.sent m hm r hr
  obtain ⟨attributes, hattrs, hrec⟩ := Exec.bind_eq_ok.1 hrec
  obtain rfl := Except.ok.inj hrec
  refine ⟨job, owner, rfl, rfl, hreg, fun u hu => ?_⟩
  obtain ⟨w, hw, hwu⟩ := (Exec.mem_of_mapM hattrs).2 u hu
  exact ⟨w, hsource w hw, hwu⟩

/-- A row of the index server is that of a job that the primary storage has registered, with
    a value that was said of this job. -/
def StoredOwn (ctx : IndexContext) (env : Env) (plugins : List (FilePlugin H))
    (s : HandshakeState × Past) : Prop :=
  (∀ job ∈ s.1.index.db.jobs.rows, ∃ owner, RegisteredFor s.1.ps.ps.tables job.dgJobid owner ∧
    job.jobid = ctx.md5 job.dgJobid ∧ job.ownerid = ctx.md5 owner) ∧
  ∀ id, ∀ row ∈ s.1.index.db.values id, ∃ job owner w u,
    RegisteredFor s.1.ps.ps.tables job owner ∧ Source env plugins s.2 job w ∧
      jp2sAttrValue w = .ok u ∧ id = attr2id ctx.md5 w.name ∧ RowOf ctx (job, u) row

/-- In every run, whatever statements fail, the index server has only jobs and values of the
    primary storage, each value under its own job and attribute. -/
theorem stored_of_reachable (hplugins : ctx.plugins = [])
    (h : (endToEndSystem conf ctx env plugins).Reachable (FedByPrimary ctx) s) :
    StoredOwn ctx env plugins s := by
  have hs := endToEnd_of_reachable hplugins h
  refine ⟨fun job hjob => ?_, fun id row hrow => ?_⟩
  · obtain ⟨hkey, r, hr, owner, hjobid, howner, hownerid⟩ := hs.contents.jobs job hjob
    obtain ⟨job', owner', hjob', howner', hreg, -⟩ := hs.own hr
    obtain rfl : job' = job.dgJobid := Option.some.inj (hjob'.symm.trans hjobid)
    obtain rfl : owner' = owner := Option.some.inj (howner'.symm.trans howner)
    exact ⟨owner', hreg, hkey, hownerid⟩
  · obtain ⟨r, hr, u, hu, job, hjob, -, hid, hrowOf⟩ := hs.contents.values id row hrow
    obtain ⟨job', owner, hjob', -, hreg, hvalues⟩ := hs.own hr
    obtain rfl : job' = job := Option.some.inj (hjob'.symm.trans hjob)
    obtain ⟨w, hw, hwu⟩ := hvalues u hu
    have hname : u.name = w.name := by
      obtain ⟨_, -, h⟩ := Exec.bind_eq_ok.1 hwu
      obtain ⟨_, -, h⟩ := Exec.bind_eq_ok.1 h
      exact congrArg AttrValue.name (Except.ok.inj h).symm
    exact ⟨job', owner, w, u, hreg, hw, hwu, hname ▸ hid.symm, hrowOf⟩

/-- A value that is read from a table is one of a record, if hashes tell jobs and names apart. -/
theorem exists_of_getAttr (hplugins : ctx.plugins = []) (hb : ctx.b64.Lawful)
    (hdb : ContentsOf ctx rs db) (hjobs : Set.InjOn ctx.md5 (jobidsOf rs))
    (hnames : Set.InjOn ctx.md5 (namesOf rs req)) (hjobid : jobid ∈ jobidsOf rs)
    (hattr : some attr ∈ req.attributes) {vs : List AttrValue}
    (h : getAttr ctx fromDb db jobid attr = .ok vs) : ∀ v ∈ vs, v.name = attr ∧
      ∃ r ∈ rs, r.jobid = some jobid ∧ ∃ u ∈ r.attributes, sameIgnoringCase u.name attr = true ∧
        v.content = u.content := by
  replace h : (attrRows ctx db jobid attr).mapM (fun row => do
      let jav ← attrvalFromDb ctx fromDb javName row.fullValue
      attrvalToSoap attr jav) = .ok vs := by
    unfold getAttr failsWithOne at h
    split at h
    · cases h
    · exact h
  intro v hv
  obtain ⟨row, hrow, hread⟩ := (Exec.mem_of_mapM h).2 v hv
  obtain ⟨hrow, hkey⟩ := List.mem_filter.1 hrow
  obtain ⟨r, hr, u, hu, job, hjob, hsend, hid, hrowOf⟩ := hdb.values _ row hrow
  obtain ⟨v', hv', hname, hcontent⟩ := attrvalToSoap_of_row hplugins hb hsend hrowOf attr
  obtain rfl : v' = v := Except.ok.inj (hv'.symm.trans hread)
  obtain ⟨av, value, -, hrowEq⟩ := hrowOf
  have hmd5 : ctx.md5 job = ctx.md5 jobid :=
    (jobid_of_attrvalRow hrowEq).symm.trans (of_decide_eq_true hkey)
  have hsame : u.name.map tolower = attr.map tolower :=
    hnames (.inl ⟨r, hr, u, hu, rfl⟩) (.inr ⟨attr, hattr, rfl⟩) hid
  exact ⟨hname, r, hr, hjobs ⟨r, hr, hjob⟩ hjobid hmd5 ▸ hjob, u, hu, decide_eq_true hsame,
    hcontent⟩

/-- The record of a job that is in the tables. -/
theorem exists_of_getAttrsOf (hplugins : ctx.plugins = []) (hb : ctx.b64.Lawful)
    (hdb : ContentsOf ctx rs db) (hjobs : Set.InjOn ctx.md5 (jobidsOf rs))
    (hnames : Set.InjOn ctx.md5 (namesOf rs req)) (hjobid : jobid ∈ jobidsOf rs)
    (h : getAttrsOf ctx fromDb db req jobid = .ok r) : r.jobid = some jobid ∧
      (∃ owner, getOwner ctx db jobid = .ok owner ∧ r.owner = some owner) ∧
      ∀ v ∈ r.attributes, some v.name ∈ req.attributes ∧ ∃ r' ∈ rs, r'.jobid = some jobid ∧
        ∃ u ∈ r'.attributes, sameIgnoringCase u.name v.name = true ∧ v.content = u.content := by
  obtain ⟨ls, hls, h⟩ := Exec.bind_eq_ok.1 h
  obtain ⟨owner, howner, h⟩ := Exec.bind_eq_ok.1 h
  obtain rfl := Except.ok.inj h
  refine ⟨rfl, ⟨owner, howner, rfl⟩, fun v hv => ?_⟩
  obtain ⟨l, hl, hv⟩ := List.mem_flatten.1 hv
  obtain ⟨a, ha, hget⟩ := (Exec.mem_of_mapM hls).2 l hl
  obtain ⟨attr, hattr, hget⟩ := Exec.bind_eq_ok.1 hget
  obtain rfl := Exec.deref_eq_ok.1 hattr
  obtain ⟨rfl, hrest⟩ := exists_of_getAttr hplugins hb hdb hjobs hnames hjobid ha hget v hv
  exact ⟨ha, hrest⟩

/-- Whatever a client asks of an index server that looks at the owner, and that is fed by a
    primary storage: it is answered of its own jobs at the primary storage, and what was said
    of these there. -/
theorem answers_of_owner (hplugins : ctx.plugins = []) (hb : ctx.b64.Lawful)
    (hauth : ctx.conf.noAuth = false)
    (h : (endToEndSystem conf ctx env plugins).Reachable (FedByPrimary ctx) s)
    (hquote : ch '\'' ∉ peer) (hescape : ch '\\' ∉ peer)
    (hjobs : Set.InjOn ctx.md5 (jobidsOf (sentRecords s.1.ps)))
    (hnames : Set.InjOn ctx.md5 (namesOf (sentRecords s.1.ps) req))
    (howners : Set.InjOn ctx.md5 (insert peer (ownersOf (sentRecords s.1.ps))))
    {answers : List (JobRecord × Bytes)}
    (hquery : indexQueryJobs (ctx.forPeer peer) fromDb s.1.index.db req = .ok answers) :
    ∀ answer ∈ answers, AnswersOwner env plugins s req peer answer.1 := by
  have hs := endToEnd_of_reachable hplugins h
  have hdb := hs.contents.forPeer peer
  have hauth' : (ctx.forPeer peer).conf.noAuth = false := hauth
  have hplugins' : (ctx.forPeer peer).plugins = [] := hplugins
  have hidentified : Identified (ctx.forPeer peer) peer := ⟨rfl, hquote, hescape⟩
  obtain ⟨-, rows, hrows, hanswers⟩ := indexQueryJobs_eq_ok.1 hquery
  intro answer hanswer
  obtain ⟨row, hrow, hrecord⟩ := (Exec.mem_of_mapM hanswers).2 answer hanswer
  obtain ⟨job, hjob, hid, -, user, huser, huserid, hcert⟩ :=
    owned_of_getJobids hauth' hidentified hrows row hrow
  obtain ⟨hkey, r, hr, owner, hjobid, howner, hownerid⟩ := hdb.jobs job hjob
  -- the owner of the record is the client, as their hashes are the same
  have hmd5 : ctx.md5 owner = ctx.md5 peer :=
    hownerid.symm.trans (huserid.symm.trans ((hdb.users user huser).trans (congrArg ctx.md5 hcert)))
  have hpeer : owner = peer := howners (.inr ⟨r, hr, howner⟩) (.inl rfl) hmd5
  obtain ⟨job', owner', hjob', howner', hreg, -⟩ := hs.own hr
  obtain rfl : job' = job.dgJobid := Option.some.inj (hjob'.symm.trans hjobid)
  obtain rfl : owner' = peer := (Option.some.inj (howner'.symm.trans howner)).trans hpeer
  obtain ⟨hjobid', ⟨o, hgetOwner, ho⟩, hvalues⟩ :=
    exists_of_getAttrsOf hplugins' hb hdb hjobs hnames (hid ▸ ⟨r, hr, hjobid⟩)
      (answer_eq_ok.1 hrecord).1
  rw [← hid] at hjobid' hgetOwner hvalues
  refine ⟨job.dgJobid, hjobid', ?_, hreg, fun v hv => ?_⟩
  · have hfound := getOwner_of_mem hjob hkey huser huserid
    rw [ho, Except.ok.inj (hgetOwner.symm.trans hfound), hcert]
  · obtain ⟨hasked, r', hr', hsame, u, hu, hname, hcontent⟩ := hvalues v hv
    obtain ⟨job', -, hjob', -, -, hsource⟩ := hs.own hr'
    obtain rfl : job' = job.dgJobid := Option.some.inj (hjob'.symm.trans hsame)
    obtain ⟨w, hw, hwu⟩ := hsource u hu
    exact ⟨hasked, w, u, hw, hwu, hname, hcontent⟩

end Answers

/-! ## A job that is sent and asked for -/

section Sample

variable {ctx : IndexContext} {v : AttrValue}

/-- What is asked of the contents of a value. -/
def StringOrBlob.Sendable (column : Bool) : Option StringOrBlob → Prop
  | some (.string s) => 0 ∉ s ∧ (column = true → Sql.Harmless s)
  | some (.blob bs) => bs.length < 2 ^ 31
  | _ => True

instance decidableStringSendable (column : Bool) :
    (value : Option StringOrBlob) → Decidable (StringOrBlob.Sendable column value)
  | some (.string s) =>
    inferInstanceAs (Decidable (0 ∉ s ∧ (column = true → ch '\'' ∉ s ∧ ch '\\' ∉ s)))
  | some (.blob bs) => inferInstanceAs (Decidable (bs.length < 2 ^ 31))
  | some .malformed | none => inferInstanceAs (Decidable True)

theorem AttrValue.sendable_iff : v.Sendable ctx ↔ 0 ∉ v.name ∧
    StringOrBlob.Sendable (hasColumn ctx.conf v.name) v.value ∧ (∀ d ∈ v.originDetail, 0 ∉ d) ∧
      -2 ^ 31 ≤ v.timestamp ∧ v.timestamp < 2 ^ 31 := by
  constructor
  · rintro ⟨hname, hvalue, hsize, hdetail, hge, hlt, hharmless⟩
    refine ⟨hname, ?_, hdetail, hge, hlt⟩
    unfold StringOrBlob.Sendable
    split
    · rename_i s hs
      exact ⟨hvalue s hs, fun hcol => hharmless hcol s hs⟩
    · rename_i bs hbs
      exact hsize bs hbs
    · trivial
  · rintro ⟨hname, hvalue, hdetail, hge, hlt⟩
    refine ⟨hname, fun s hs => ?_, fun bs hbs => ?_, hdetail, hge, hlt, fun hcol s hs => ?_⟩
    · rw [hs] at hvalue
      exact hvalue.1
    · rw [hbs] at hvalue
      exact hvalue
    · rw [hs] at hvalue
      exact hvalue.2 hcol

instance AttrValue.decidableSendable : Decidable (v.Sendable ctx) :=
  decidable_of_iff _ AttrValue.sendable_iff.symm

instance JobRecord.decidableSendable (r : JobRecord) : Decidable (r.Sendable ctx) :=
  inferInstanceAs (Decidable (∀ v ∈ r.attributes, v.Sendable ctx))

instance decidableFedByPrimary (s : HandshakeState × Past) :
    (a : HandshakeAction) → Decidable (FedByPrimary ctx s a)
  | .index (.slave _ (.select _ _)) => inferInstanceAs (Decidable False)
  | .arrive i _ _ => inferInstanceAs (Decidable (∀ m ∈ (s.1.flight i).head?,
      ∀ r ∈ m.msg.jobAttributes, r.Sendable ctx))
  | .index (.slave _ (.mark _)) | .index (.slave _ (.store _)) | .index (.feeder _ _) | .ps _
  | .answer .. | .receive .. => inferInstanceAs (Decidable True)

end Sample

/-- An index server of times of registration that looks at the owner. -/
def regtimeServer : IndexContext :=
  { sampleServer false with
    conf :=
      { attrs := [GLITE_JP_ATTR_JOBID, GLITE_JP_ATTR_REGTIME]
        multivalAttrs := []
        queriableAttrs := []
        noAuth := false } }

/-- It has no jobs, and a feed to ask for; the primary storage has a job of alice. -/
def endToEndStart : HandshakeState × Past :=
  (⟨serverStart,
    ⟨{ sampleIndexDb with
        jobs := .empty
        users := .empty
        feeds := sampleFeeds 0
        attrs := [⟨attr2id sampleMd5 GLITE_JP_ATTR_REGTIME, GLITE_JP_ATTR_REGTIME, 1⟩] },
      fun _ => ⟨.idle, ∅⟩, fun _ => .idle⟩,
    fun _ => none, fun _ => []⟩, [])

/-- A slave of the index server stores the record of a message. -/
def feedIndexed : List HandshakeAction :=
  [.index (.slave 0 (.mark never)), .index (.slave 0 (.store never))]

/-- A run of the two servers and the history. -/
def runEndToEnd (actions : List HandshakeAction) : Option (HandshakeState × Past) :=
  actions.foldlM (fun s a => if FedByPrimary regtimeServer s a then
    (handshakeStep pastFeeding regtimeServer (answersEnv true) ([] : List (FilePlugin Unit)) s.1
      a).map fun t => (t, s.2 ++ (a.served s.1).toList.map (s.1.ps, ·)) else none) endToEndStart

theorem reachable_runEndToEnd {actions : List HandshakeAction} {s : HandshakeState × Past}
    (h : runEndToEnd actions = some s) :
    (endToEndSystem pastFeeding regtimeServer (answersEnv true)
      ([] : List (FilePlugin Unit))).Reachable (FedByPrimary regtimeServer) s := by
  refine ⟨endToEndStart, ⟨⟨serverStart_init, ⟨fun _ => rfl, fun _ => rfl⟩, fun _ => rfl,
    fun _ => rfl⟩, rfl, rfl, fun _ => rfl, rfl⟩, .of_foldlM (fun s a t hst => ?_) h⟩
  obtain ⟨u, hu, rfl⟩ := Option.map_eq_some_iff.1 hst
  exact ⟨hu, rfl⟩

/-- The record of the job. -/
def regtimeRecord : JobRecord where
  jobid := some lateJob.dgJobid
  owner := some (ascii "/CN=alice")
  attributes := [⟨GLITE_JP_ATTR_REGTIME, some (.string (ascii "1000000000")), 0, .SYSTEM, none⟩]
  remove := some false

/-- The query for the time of registration of the job. -/
def regtimeQuery : QueryJobs where
  conditions := [⟨some GLITE_JP_ATTR_JOBID, none,
    [⟨.EQUAL, some (.string lateJob.dgJobid), none⟩]⟩]
  attributes := [some GLITE_JP_ATTR_REGTIME]

/-- Whether alice is answered with the time of her job. -/
def answersRegtime (s : HandshakeState × Past) : Bool :=
  match indexQueryJobs (regtimeServer.forPeer (ascii "/CN=alice")) (fun _ => none) s.1.index.db
    regtimeQuery with
  | .ok answers => answers.map (fun answer => answer.1.attributes.length) = [1]
  | .error _ => false

theorem regtime_run : (runEndToEnd (feedAsked ++ feedStored ++ feedSent ++ feedIndexed)).any
    (fun s => sentRecords s.1.ps = [regtimeRecord] ∧ s.1.index.db.jobs.rows.length = 1 ∧
      answersRegtime s) = true := by
  decide +kernel

/-- The job is stored with its time. -/
theorem stored_of_reachable_sample : ∃ s : HandshakeState × Past,
    s.1.index.db.jobs.rows.length = 1 ∧
      StoredOwn regtimeServer (answersEnv true) ([] : List (FilePlugin Unit)) s := by
  obtain ⟨s, hrun, hs⟩ := Option.any_eq_true _ _ |>.1 regtime_run
  exact ⟨s, (of_decide_eq_true hs).2.1, stored_of_reachable rfl (reachable_runEndToEnd hrun)⟩

/-- Alice is answered with the time of her job. -/
theorem answers_of_owner_sample :
    ∃ (s : HandshakeState × Past) (answers : List (JobRecord × Bytes)),
    answers.map (fun answer => answer.1.attributes.length) = [1] ∧ ∀ answer ∈ answers,
      AnswersOwner (answersEnv true) ([] : List (FilePlugin Unit)) s regtimeQuery
        (ascii "/CN=alice") answer.1 := by
  obtain ⟨s, hrun, hs⟩ := Option.any_eq_true _ _ |>.1 regtime_run
  obtain ⟨hsent, -, hquery⟩ := of_decide_eq_true hs
  unfold answersRegtime at hquery
  split at hquery
  · rename_i answers hanswers
    have hreach := reachable_runEndToEnd hrun
    have hjobs : (jobidsOf (sentRecords s.1.ps)).Subsingleton := by
      rintro x ⟨r, hr, hx⟩ y ⟨r', hr', hy⟩
      rw [hsent] at hr hr'
      obtain rfl := List.mem_singleton.1 hr
      obtain rfl := List.mem_singleton.1 hr'
      exact Option.some.inj (hx.symm.trans hy)
    have howners : ∀ x ∈ insert (ascii "/CN=alice") (ownersOf (sentRecords s.1.ps)),
        x = ascii "/CN=alice" := by
      rintro x (rfl | ⟨r, hr, hx⟩)
      · rfl
      · rw [hsent] at hr
        obtain rfl := List.mem_singleton.1 hr
        exact (Option.some.inj hx).symm
    have hnames : ∀ x ∈ namesOf (sentRecords s.1.ps) regtimeQuery,
        x = GLITE_JP_ATTR_REGTIME.map tolower := by
      rintro x (⟨r, hr, v, hv, rfl⟩ | ⟨a, ha, rfl⟩)
      · rw [hsent] at hr
        obtain rfl := List.mem_singleton.1 hr
        obtain rfl := List.mem_singleton.1 hv
        rfl
      · obtain rfl := Option.some.inj (List.mem_singleton.1 ha)
        rfl
    refine ⟨s, answers, of_decide_eq_true hquery, answers_of_owner rfl Base64.standard_lawful rfl
      hreach (by decide) (by decide) (hjobs.injOn _) ?_ ?_ hanswers⟩
    · exact Set.Subsingleton.injOn (fun x hx y hy => (hnames x hx).trans (hnames y hy).symm) _
    · exact Set.Subsingleton.injOn (fun x hx y hy => (howners x hx).trans (howners y hy).symm) _
  · cases hquery

end JobProvenance
