import JobProvenance.Primary.Begun
import JobProvenance.Primary.Due
import JobProvenance.Primary.Origins

/-!
# Where values that are sent come from

Everything a primary storage sends of a job is put together in several places: from the
rows of a history, from what arrived in a request, from what plugins read of a file, or
from all that there is of the job. The slaves do that part by part, for many jobs at once,
with what was read in one part and is sent in another.

The history beside the storage (`Past`) has the steps that were taken, each with the state
before it.

* `Source`: how a value of a job may have come to the storage, and `OwnRecord`: a record
  has the owner the job was registered for, and values of this job only;
* `Task.exec_own`: what a part of a deferred action sends, and what it leaves to be sent;
* `own_of_reachable`: no message has a value of one job under another, or under an owner
  the job was not registered for.
-/

namespace JobProvenance

/-! ## Sources -/

/-- The steps that were taken, and the states they were taken in. -/
abbrev Past := List (ServerState × ServerAction)

/-- A job is registered for an owner, as a string. -/
def RegisteredFor (t : Tables) (job owner : Bytes) : Prop :=
  ∃ o regTime, JobInfoIs t job o regTime ∧ cstr owner = cstr o

/-- How a value of a job may have come to a storage: the system knows it of the row of the
    job, or was told it at the registration; it is a tag of the job that was read, or
    that a client recorded who may; a plugin has read it of the files of the job; or it is
    a copy of such a value. -/
inductive Source {H : Type} (env : Env) (plugins : List (FilePlugin H)) (past : Past)
    (job : Bytes) : Attrval → Prop
  | system {s : ServerState} {a : ServerAction} {owner name text : Bytes} {regTime time : ℤ} :
      (s, a) ∈ past → JobInfoIs s.ps.tables job owner regTime → isMetadata name = true →
      text = regtimeText regTime ∧ time = regTime ∨ text = printDec regTime ∧ time = 0 →
      Source env plugins past job
        (systemValue name (if name = GLITE_JP_ATTR_OWNER then owner else text) time)
  | registered {s : ServerState} {i : ℕ} {now : ℤ} {ctx : PsContext} {owner : Bytes} :
      (s, .request i now (.registerJob ctx job owner)) ∈ past → authzTrusted ctx = .ok true →
      Source env plugins past job (systemValue GLITE_JP_ATTR_OWNER owner now)
  | tag {s : ServerState} {a : ServerAction} {name : Bytes} {tags : List Attrval} {v : Attrval} :
      (s, a) ∈ past → tagsNamed env s.ps job name = .ok tags → v ∈ tags →
      Source env plugins past job v
  | recorded {s : ServerState} {i : ℕ} {now : ℤ} {r : ServerRequest} {ctx : PsContext}
      {owner : Bytes} {tags : List SoapTag} {tag : SoapTag} {v : Attrval} :
      (s, .request i now r) ∈ past →
      r = .recordTag ctx job tag ∨ (∃ jobs, r = .recordMultiTags ctx jobs ∧ (job, tags) ∈ jobs ∧
        tag ∈ tags) →
      taggedOwner ctx s.ps job = .ok (some owner) → tagAttrval tag now = .ok v →
      Source env plugins past job v
  | plugin {name : Bytes} {v : Attrval} :
      v ∈ env.plugins.attr job name → Source env plugins past job v
  | file {s : ServerState} {a : ServerAction} {feeds : List Jpfeed} {cls : Bytes}
      {name : Option Bytes} {vals : List Attrval} {v : Attrval} :
      (s, a) ∈ past → fileVals plugins env feeds job cls name s.ps = .ok vals → v ∈ vals →
      Source env plugins past job v
  | copied {v w : Attrval} :
      Source env plugins past job v → v.copy = .ok w → Source env plugins past job w
  | kept {v w : Attrval} :
      Source env plugins past job v → keepAttr v = .ok w → Source env plugins past job w
  | noDetail {v : Attrval} :
      Source env plugins past job v → Source env plugins past job { v with originDetail := none }

/-! ## What is own -/

section Own

variable (R : Bytes → Bytes → Prop) (P : Bytes → Attrval → Prop)

/-- A job with one of its owners and some of its values. -/
def Own (job owner : Bytes) (attrs : List Attrval) : Prop := R job owner ∧ ∀ v ∈ attrs, P job v

/-- A record of such a job. -/
def OwnRecord (jr : JobRecord) : Prop :=
  ∃ job owner attrs, Own R P job owner attrs ∧ jobRecord job owner attrs = .ok jr

/-- A message of such records. -/
def OwnMessage (m : Sent) : Prop := ∀ jr ∈ m.msg.jobAttributes, OwnRecord R P jr

/-- A row of a history is about one job. -/
def OwnRow (row : Bytes × List Attrval) : Prop :=
  (∀ v ∈ row.2, P row.1 v) ∧ ∀ owner, rowOwner row.2 = .ok owner → R row.1 owner

/-- The stacked jobs are. -/
def Stack.Own (stack : Stack) : Prop :=
  ∃ items, stack.Holds items ∧ ∀ j ∈ items, JobProvenance.Own R P j.job j.owner j.attrs

/-- What a call of `match_feed` has found of its job. -/
def MatchStep.Own (job : Bytes) : MatchStep → Prop
  | .matching attrs | .checkFed attrs | .increment attrs => ∀ v ∈ attrs, P job v
  | .sendFull a => (∀ v ∈ a, P job v) ∧ ∀ v ∈ a, v.name = GLITE_JP_ATTR_OWNER → R job v.value
  | .fullFeed | .setFed => True

/-- What is left of a deferred action has each value with its own job. -/
def Task.Own : Task → Prop
  | .feedRows _ stack rows => stack.Own R P ∧ ∀ row ∈ rows, OwnRow R P row
  | .matchAttr _ job attrs | .matchVals _ job attrs => ∀ v ∈ attrs, P job v
  | .matchAttrMulti _ jobs => ∀ j ∈ jobs, ∀ v ∈ j.2, P j.1 v
  | .matchFeed _ job _ step => step.Own R P job
  | .matchJobs _ jobs found => (∀ j ∈ jobs, ∀ v ∈ j.2, P j.1 v) ∧
      ∀ m ∈ found, JobProvenance.Own R P m.job m.owner m.attrs
  | .runFeed _ | .registerFeed _ | .matchFile .. | .markJobs .. | .freed => True

/-- What is read of a storage is own. -/
structure ReadsOwn {H : Type} (env : Env) (plugins : List (FilePlugin H)) (s : PsState) : Prop where
  owner : ∀ job owner regTime, JobInfoIs s.tables job owner regTime → R job owner
  values : ∀ job names out, getAttrs env s job names = .ok out → ∀ v ∈ out, P job v
  rows : ∀ qry names rows, beQuery s.tables.jobs.rows s.tables.users.rows qry
    (GLITE_JP_ATTR_OWNER :: names) = .ok rows → ∀ row ∈ rows, OwnRow R P row
  file : ∀ feeds job cls name vals, fileVals plugins env feeds job cls name s = .ok vals →
    ∀ v ∈ vals, P job v
  copied : ∀ job v w, P job v → v.copy = .ok w → P job w

/-- The storage with its files and tables as they were, and what was sent own. -/
structure OwnState (s u : PsState) : Prop where
  tables_eq : u.tables = s.tables
  disk_eq : u.disk = s.disk
  sent : ∀ m ∈ u.sent, OwnMessage R P m

end Own

section Mono

variable {R R' : Bytes → Bytes → Prop} {P P' : Bytes → Attrval → Prop}

theorem OwnRecord.mono {jr : JobRecord} (h : OwnRecord R P jr) (hR : ∀ job o, R job o → R' job o)
    (hP : ∀ job v, P job v → P' job v) : OwnRecord R' P' jr :=
  let ⟨job, owner, attrs, hown, hrec⟩ := h
  ⟨job, owner, attrs, ⟨hR _ _ hown.1, fun v hv => hP _ _ (hown.2 v hv)⟩, hrec⟩

theorem Stack.Own.mono {stack : Stack} (h : stack.Own R P) (hR : ∀ job o, R job o → R' job o)
    (hP : ∀ job v, P job v → P' job v) : stack.Own R' P' :=
  let ⟨items, hitems, hown⟩ := h
  ⟨items, hitems, fun j hj => ⟨hR _ _ (hown j hj).1, fun v hv => hP _ _ ((hown j hj).2 v hv)⟩⟩

theorem Task.Own.mono {t : Task} (h : t.Own R P) (hR : ∀ job o, R job o → R' job o)
    (hP : ∀ job v, P job v → P' job v) : t.Own R' P' := by
  cases t with
  | feedRows f stack rows =>
    exact ⟨h.1.mono hR hP, fun row hrow => ⟨fun v hv => hP _ _ ((h.2 row hrow).1 v hv),
      fun o ho => hR _ _ ((h.2 row hrow).2 o ho)⟩⟩
  | matchAttr feeds job attrs => exact fun v hv => hP _ _ (h v hv)
  | matchVals feeds job attrs => exact fun v hv => hP _ _ (h v hv)
  | matchAttrMulti feeds jobs => exact fun j hj v hv => hP _ _ (h j hj v hv)
  | matchFeed feed job file step =>
    cases step with
    | «matching» attrs | checkFed attrs | increment attrs => exact fun v hv => hP _ _ (h v hv)
    | sendFull a => exact ⟨fun v hv => hP _ _ (h.1 v hv), fun v hv hn => hR _ _ (h.2 v hv hn)⟩
    | fullFeed | setFed => trivial
  | matchJobs feed jobs found =>
    exact ⟨fun j hj v hv => hP _ _ (h.1 j hj v hv), fun m hm =>
      ⟨hR _ _ (h.2 m hm).1, fun v hv => hP _ _ ((h.2 m hm).2 v hv)⟩⟩
  | runFeed | registerFeed | matchFile | markJobs | freed => trivial

end Mono

/-! ## What is read -/

section Reads

variable {H : Type} {env : Env} {plugins : List (FilePlugin H)} {s : PsState} {job : Bytes}
  {names : List Bytes} {out : List Attrval}

theorem cstr_cstr (s : Bytes) : cstr (cstr s) = cstr s := by
  refine cstr_eq_self fun h => ?_
  simpa using List.mem_takeWhile_imp h

/-- The owner that is looked up is the one the job is registered for. -/
theorem jobInfoIs_of_ownerOf {owner : Bytes} (h : ownerOf s job = .ok (some owner)) :
    ∃ regTime, JobInfoIs s.tables job owner regTime := by
  unfold ownerOf at h
  split at h
  · rename_i v hv
    obtain rfl := Option.some.inj (Except.ok.inj h)
    obtain ⟨⟨owner, regTime⟩, hinfo, hv⟩ := Exec.bind_eq_ok.1 hv
    obtain rfl := Except.ok.inj hv
    exact ⟨regTime, jobInfoIs_of_getJobInfo hinfo⟩
  · cases h
  · cases h

/-- What is found of a job: the metadata of its row, its tags, and what plugins read. -/
theorem mem_getAttrs (h : getAttrs env s job names = .ok out) : ∀ v ∈ out,
    (∃ owner regTime name, JobInfoIs s.tables job owner regTime ∧ isMetadata name = true ∧
      v = systemValue name
        (if name = GLITE_JP_ATTR_OWNER then owner else regtimeText regTime) regTime) ∨
    isMetadata v.name = false ∧ ((∃ tags, tagsNamed env s job v.name = .ok tags ∧ v ∈ tags) ∨
      v ∈ env.plugins.attr job v.name) := by
  intro v hv
  obtain ⟨metadata, hmeta, h⟩ := Exec.bind_eq_ok.1 h
  obtain ⟨other, hother, h⟩ := Exec.bind_eq_ok.1 h
  dsimp only at h
  split_ifs at h
  obtain rfl := Except.ok.inj h
  obtain hv | hv := List.mem_append.1 hv
  · obtain ⟨vals, hvals, hv⟩ := List.mem_flatten.1 hv
    obtain ⟨name, hname, hvals⟩ := (Exec.mem_of_mapM hother).2 vals hvals
    obtain ⟨tags, htags, hvals⟩ := Exec.bind_eq_ok.1 hvals
    obtain rfl := Except.ok.inj hvals
    have hno : isMetadata name = false := by simpa using (List.mem_filter.1 hname).2
    obtain htag | hplugin := List.mem_append.1 hv
    · obtain rfl := (mem_of_tagsNamed htags v htag).1
      exact .inr ⟨hno, .inl ⟨tags, htags, htag⟩⟩
    · obtain rfl := env.plugins.name_eq job name v hplugin
      exact .inr ⟨hno, .inr hplugin⟩
  · obtain ⟨name, hname, hjob⟩ := (Exec.mem_of_mapM hmeta).2 v hv
    have hyes : isMetadata name = true := (List.mem_filter.1 hname).2
    unfold jobMetadata at hjob
    rw [if_pos hyes] at hjob
    obtain ⟨⟨owner, regTime⟩, hinfo, hjob⟩ := Exec.bind_eq_ok.1 hjob
    exact .inl ⟨owner, regTime, name, jobInfoIs_of_getJobInfo hinfo, hyes,
      (Except.ok.inj hjob).symm⟩

/-- The rows of a history are those of jobs, each with its owner. -/
theorem mem_beQuery {jobs : List JobRow} {users : List UserRow} {qry : List QueryRec}
    {rows : List (Bytes × List Attrval)}
    (h : beQuery jobs users qry (GLITE_JP_ATTR_OWNER :: names) = .ok rows) :
    (GLITE_JP_ATTR_OWNER :: names).all isMetadata = true ∧ ∀ row ∈ rows,
      ∃ j ∈ jobs, ∃ u ∈ users, u.userid = j.owner ∧
        row = (j.dgJobid, beValues (GLITE_JP_ATTR_OWNER :: names) j u) := by
  obtain ⟨-, h⟩ | ⟨-, h⟩ := ite_eq_iff.1 h
  · cases h
  obtain ⟨conds, -, h⟩ := Exec.bind_eq_ok.1 h
  obtain ⟨-, h⟩ | ⟨hall, h⟩ := ite_eq_iff.1 h
  · cases h
  obtain ⟨-, h⟩ | ⟨-, h⟩ := ite_eq_iff.1 h
  · cases h
  refine ⟨of_not_not hall, ?_⟩
  split at h
  · cases h
  · obtain rfl := Except.ok.inj h
    intro row hrow
    obtain ⟨⟨j, u⟩, hju, rfl⟩ := List.mem_map.1 hrow
    have howner : decide (GLITE_JP_ATTR_OWNER ∈ GLITE_JP_ATTR_OWNER :: names) = true :=
      decide_eq_true List.mem_cons_self
    rw [beRows, howner] at hju
    obtain ⟨hmem, hcond⟩ := List.mem_filter.1 hju
    obtain ⟨hj, hu⟩ := List.pair_mem_product.1 hmem
    exact ⟨j, hj, u, by simpa using hu, by simpa using (Bool.and_eq_true_iff.1 hcond).2, rfl⟩

end Reads

/-! ## What is sent -/

section Sends

variable {R : Bytes → Bytes → Prop} {P : Bytes → Attrval → Prop} {answers : ℕ → Bool}
  {id destination job : Bytes} {done : Bool} {attrs : List Attrval} {stack : Stack}
  {items : List StackedJob} {f : HistoryFeed}

/-- One job is sent with what is own. -/
theorem sends_own_singleFeed {owner : Option Bytes} (h : ∀ o ∈ owner, Own R P job o attrs) :
    Sends (OwnMessage R P) (singleFeed answers id done destination job owner attrs) :=
  sends_singleFeed fun o _ _ ho hjr => List.forall_mem_singleton.2 ⟨job, o, attrs, h o ho, hjr⟩

/-- Many jobs are, as each is found in the arrays with its own. -/
theorem sends_own_multiFeed (hs : stack.Holds items)
    (h : ∀ j ∈ items, Own R P j.job j.owner j.attrs) : Sends (OwnMessage R P)
      (multiFeed answers id done stack.njobs destination stack.jobs stack.owners
        stack.jobAttrs) := by
  refine sends_multiFeed fun records _ hr jr hjr => ?_
  rw [hs.jobRecords_eq] at hr
  obtain ⟨j, hj, hrec⟩ := (Exec.mem_of_mapM hr).2 jr hjr
  exact ⟨j.job, j.owner, j.attrs, h j hj, hrec⟩

theorem Stack.Own.empty : Stack.empty.Own R P := ⟨[], .empty, nofun⟩

/-- A job is stacked with what is own. -/
theorem stackJob_own {metadata out : List Attrval} {stack' : Stack} (hs : stack.Own R P)
    (hout : ∀ v ∈ out, P job v) (howner : ∀ o, rowOwner metadata = .ok o → R job o)
    (h : stackJob stack job metadata out = .ok stack') : stack'.Own R P := by
  unfold stackJob at h
  split_ifs at h
  · exact Except.ok.inj h ▸ hs
  · obtain ⟨owner, ho, h⟩ := Exec.bind_eq_ok.1 h
    obtain rfl := Except.ok.inj h
    obtain ⟨items, hitems, hown⟩ := hs
    exact ⟨_, hitems.push ⟨job, owner, out⟩, List.forall_mem_append.2
      ⟨hown, List.forall_mem_singleton.2 ⟨howner owner ho, hout⟩⟩⟩

/-- The values that are stacked are copies of those of the job. -/
theorem extract_own {metadata out : List Attrval} {other : Option (List Attrval)}
    (hcopy : ∀ v w, P job v → v.copy = .ok w → P job w) (hm : ∀ v ∈ metadata, P job v)
    (ho : ∀ vs ∈ other, ∀ v ∈ vs, P job v) (h : extract f metadata other = .ok out) :
    ∀ v ∈ out, P job v := by
  intro v hv
  obtain ⟨w, hw, hwv⟩ := (Exec.mem_of_mapM h).2 v hv
  refine hcopy w v ?_ hwv
  obtain hw | hw := List.mem_append.1 hw
  · obtain ⟨u, hu, hw⟩ := List.mem_flatMap.1 hw
    exact (List.mem_replicate.1 hw).2 ▸ hm u hu
  · obtain ⟨u, hu, hw⟩ := List.mem_flatMap.1 hw
    obtain rfl := (List.mem_replicate.1 hw).2
    cases other with
    | none => exact absurd hu List.not_mem_nil
    | some vs => exact ho vs rfl w hu

theorem drainFeed_own (hs : stack.Own R P) :
    Stateful.Yields (fun box : Outbox => ∀ m ∈ box.sent, OwnMessage R P m) (fun r => r.2.Own R P)
      (drainFeed answers f stack done) := by
  unfold drainFeed
  split_ifs
  · exact .pure hs
  · obtain ⟨items, hitems, hown⟩ := hs
    refine (Stateful.Keeps.yields (sends_own_multiFeed hitems hown)).bind fun ret _ => ?_
    split_ifs
    · refine Stateful.Yields.bind (Q := fun _ => True) (Stateful.Keeps.yields ?_) fun _ _ =>
        .pure Stack.Own.empty
      exact .forM (fun i => (Stateful.Keeps.liftM _).bind fun job =>
        Stateful.Keeps.bind (sends_setFed _ _) fun _ => .pure _) _
    · exact .pure Stack.Own.empty

/-- A row of the history is stacked, and sent with a batch. -/
theorem feedQueryCallback_own {getAttrs : Bytes → List Bytes → Exec (List Attrval)}
    {metadata : List Attrval} (hcopy : ∀ v w, P job v → v.copy = .ok w → P job w)
    (hvalues : ∀ names out, getAttrs job names = .ok out → ∀ v ∈ out, P job v)
    (hrow : OwnRow R P (job, metadata)) (hs : stack.Own R P) :
    Stateful.Yields (fun box : Outbox => ∀ m ∈ box.sent, OwnMessage R P m) (fun r => r.2.Own R P)
      (feedQueryCallback answers getAttrs f stack job metadata) := by
  unfold feedQueryCallback
  split
  · exact .pure hs
  · exact .throw _
  · rename_i other hother
    have hvals : ∀ vs ∈ other, ∀ v ∈ vs, P job v := by
      rintro vs rfl
      unfold otherValues at hother
      split at hother
      · rename_i vs' hget
        obtain rfl := Option.some.inj (Except.ok.inj hother)
        exact hvalues _ _ hget
      · cases hother
      · cases hother
      · cases hother
    refine (Stateful.Keeps.liftM _).yields.bind fun met _ => ?_
    split_ifs
    · refine (Stateful.Yields.liftM fun out => extract_own hcopy hrow.1 hvals).bind fun out hout =>
        (Stateful.Yields.liftM fun stack' => stackJob_own hs hout hrow.2).bind fun stack' hs' => ?_
      unfold drainFull
      split_ifs
      · exact (drainFeed_own hs').bind fun r hr => .pure hr
      · exact .pure hs'
    · exact .pure hs

end Sends

/-! ## What a part of a deferred action sends -/

section Exec

variable {H : Type} {env : Env} {plugins : List (FilePlugin H)} {R : Bytes → Bytes → Prop}
  {P : Bytes → Attrval → Prop} {feed : Jpfeed} {job : Bytes} {now : ℤ} {s : PsState} {t : Task}

theorem yields_own_sending {α : Type} {Q : α → Prop} {x : Sending α}
    (h : Stateful.Yields (fun box : Outbox => ∀ m ∈ box.sent, OwnMessage R P m) Q x) :
    Stateful.Yields (OwnState R P s) Q (liftM x : Serving α) := by
  refine ⟨fun u hu => ?_, fun u hu a u' hx => ?_⟩
  · have hsent := h.1 u.toOutbox hu.sent
    rw [sending_apply]
    split <;> rename_i hx <;> rw [hx] at hsent <;> exact ⟨hu.tables_eq, hu.disk_eq, hsent⟩
  · obtain ⟨box, hbox, -⟩ := sending_eq_ok.1 hx
    exact h.2 u.toOutbox hu.sent a box hbox

theorem keeps_own_sending {α : Type} {x : Sending α} (h : Sends (OwnMessage R P) x) :
    Stateful.Keeps (OwnState R P s) (liftM x : Serving α) := (yields_own_sending h.yields).1

/-- What is read in a storage whose tables and files are the same. -/
theorem ReadsOwn.congr {u : PsState} (h : ReadsOwn R P env plugins s) (hu : OwnState R P s u) :
    ReadsOwn R P env plugins u := by
  obtain ⟨howner, hvalues, hrows, hfile, hcopied⟩ := h
  refine ⟨?_, ?_, ?_, ?_, hcopied⟩
  · rw [hu.tables_eq]
    exact howner
  · rw [getAttrs_congr hu.tables_eq hu.disk_eq]
    exact hvalues
  · rw [hu.tables_eq]
    exact hrows
  · intro feeds job cls name vals h
    simp only [fileVals, hu.tables_eq, hu.disk_eq] at h
    exact hfile feeds job cls name vals h

/-- A step of a call of `match_feed` has found, or sends, what is of its job. -/
theorem MatchStep.exec_own (hreads : ReadsOwn R P env plugins s) {step : MatchStep}
    (hstep : step.Own R P job) : Stateful.Yields (OwnState R P s)
      (fun next => ∀ step', next = some step' → step'.Own R P job) (step.exec env feed job) := by
  cases step with
  | «matching» attrs =>
    refine Stateful.Yields.get.bind fun u _ => (Stateful.Keeps.liftM _).yields.bind fun m _ => ?_
    split_ifs
    · exact .pure fun step' h => Option.some.inj h ▸ hstep
    · exact .pure nofun
  | checkFed attrs =>
    refine Stateful.Yields.get.bind fun u _ => (Stateful.Keeps.liftM _).yields.bind fun n _ => ?_
    split_ifs
    · exact .pure fun step' h => Option.some.inj h ▸ trivial
    · exact .pure fun step' h => Option.some.inj h ▸ hstep
  | fullFeed =>
    refine Stateful.Yields.get.bind fun u hu => (Stateful.Yields.liftM fun a h =>
      stored_eq_ok.1 h).bind fun a ha => .pure fun step' h => Option.some.inj h ▸ ?_
    have hreads := hreads.congr hu
    obtain ⟨attrs, -, hget⟩ := Exec.bind_eq_ok.1 ha
    refine ⟨hreads.values _ _ _ hget, fun v hv hname => ?_⟩
    obtain ⟨owner, regTime, name, hinfo, -, rfl⟩ | ⟨hmeta, -⟩ := mem_getAttrs hget v hv
    · obtain rfl : name = GLITE_JP_ATTR_OWNER := hname
      exact hreads.owner _ _ _ hinfo
    · rw [hname] at hmeta
      exact absurd hmeta (by decide)
  | sendFull a =>
    refine (keeps_own_sending (sends_own_singleFeed fun o ho => ?_)).yields.bind fun ret _ => ?_
    · obtain ⟨v, hfind, rfl⟩ := Option.map_eq_some_iff.1 ho
      exact ⟨hstep.2 v (List.mem_of_find?_eq_some hfind) (by simpa using List.find?_some hfind),
        hstep.1⟩
    · split_ifs
      · exact .pure fun step' h => Option.some.inj h ▸ trivial
      · exact .pure nofun
  | setFed => exact (keeps_own_sending (sends_setFed _ _)).yields.bind fun _ _ => .pure nofun
  | increment attrs =>
    refine Stateful.Yields.get.bind fun u hu => (Stateful.Yields.liftM fun owner => id).bind
      fun owner howner => (keeps_own_sending (sends_own_singleFeed fun o ho => ?_)).yields.bind
        fun _ _ => .pure nofun
    obtain rfl := ho
    obtain ⟨regTime, hinfo⟩ := jobInfoIs_of_ownerOf howner
    exact ⟨(hreads.congr hu).owner _ _ _ hinfo, hstep⟩

/-- The jobs that a feed has matched go out in one message, each with its own. -/
theorem sends_own_found {answers : ℕ → Bool} {found : List MatchedJob}
    (h : ∀ m ∈ found, Own R P m.job m.owner m.attrs) : Sends (OwnMessage R P)
      (multiFeed answers feed.id false found.length feed.destination (found.map (·.job))
        (found.map (·.owner)) (found.map (·.attrs))) := by
  have hholds : Stack.Holds ⟨found.length, found.map (·.job), found.map (·.owner),
      found.map (·.attrs)⟩ (found.map fun m => ⟨m.job, m.owner, m.attrs⟩) := by
    refine ⟨?_, ?_, ?_, ?_⟩
    · rw [List.length_map]
    · rw [List.map_map]; rfl
    · rw [List.map_map]; rfl
    · rw [List.map_map]; rfl
  have hown : ∀ j ∈ found.map fun m => (⟨m.job, m.owner, m.attrs⟩ : StackedJob),
      Own R P j.job j.owner j.attrs := fun j hj => by
    obtain ⟨m, hm, rfl⟩ := List.mem_map.1 hj
    exact h m hm
  have hsends := @sends_own_multiFeed R P answers feed.id feed.destination false _ _ hholds hown
  dsimp only at hsends
  exact hsends

theorem matchJobs_own (hreads : ReadsOwn R P env plugins s) {jobs : List (Bytes × List Attrval)}
    {found : List MatchedJob} (ht : Task.Own R P (.matchJobs feed jobs found)) :
    Stateful.Yields (OwnState R P s) (fun p => ∀ t ∈ p.tasks, t.Own R P)
      ((Task.matchJobs feed jobs found).exec env plugins now) := by
  cases jobs with
  | nil =>
    refine (keeps_own_sending (sends_own_found ht.2)).yields.bind fun ret _ => ?_
    split_ifs
    · exact .pure (List.forall_mem_singleton.2 trivial)
    · exact .pure (List.forall_mem_nil _)
  | cons j jobs =>
    obtain ⟨hj, hjobs⟩ := List.forall_mem_cons.1 ht.1
    refine Stateful.Yields.get.bind fun u hu => (Stateful.Keeps.liftM _).yields.bind fun m _ => ?_
    split_ifs
    · refine (Stateful.Yields.liftM fun owner => id).bind fun owner howner =>
        (Stateful.Yields.liftM fun o ho => Exec.deref_eq_ok.1 ho).bind fun o ho =>
          .pure (List.forall_mem_singleton.2 ⟨hjobs, ?_⟩)
      subst ho
      obtain ⟨regTime, hinfo⟩ := jobInfoIs_of_ownerOf howner
      exact List.forall_mem_append.2
        ⟨ht.2, List.forall_mem_singleton.2 ⟨(hreads.congr hu).owner _ _ _ hinfo, hj⟩⟩
    · exact .pure (List.forall_mem_singleton.2 ⟨hjobs, ht.2⟩)

/-- A part of a deferred action sends what is own, and so will what is left of it. -/
theorem Task.exec_own (hreads : ReadsOwn R P env plugins s) (ht : t.Own R P) :
    Stateful.Yields (OwnState R P s) (fun p => ∀ t ∈ p.tasks, t.Own R P)
      (t.exec env plugins now) := by
  have hnil : ∀ t ∈ (Progress.goes []).tasks, Task.Own R P t := nofun
  have hfreed : ∀ t ∈ (Progress.fails .freed).tasks, Task.Own R P t :=
    List.forall_mem_singleton.2 trivial
  cases t with
  | runFeed feed =>
    refine Stateful.Yields.get.bind fun u hu => ?_
    split
    · exact .pure hfreed
    · exact .throw _
    · split
      · exact .pure hnil
      · exact .pure hfreed
      · exact .throw _
      · rename_i rows hrows
        exact .pure (List.forall_mem_singleton.2
          ⟨Stack.Own.empty, (hreads.congr hu).rows _ _ _ hrows⟩)
  | feedRows f stack rows =>
    -- the stack is sent when all rows are on it, or when it is full
    cases rows with
    | nil =>
      refine (yields_own_sending (drainFeed_own ht.1)).bind fun r _ => ?_
      obtain ⟨ret, stack'⟩ := r
      cases ret with
      | none => exact .pure hnil
      | some e => exact .pure hfreed
    | cons row rows =>
      obtain ⟨hrow, hrows⟩ := List.forall_mem_cons.1 ht.2
      refine Stateful.Yields.get.bind fun u hu => (yields_own_sending (feedQueryCallback_own
        (hreads.copied _) ((hreads.congr hu).values _) hrow ht.1)).bind fun r hr => ?_
      obtain ⟨ret, stack'⟩ := r
      cases ret with
      | none => exact .pure (List.forall_mem_singleton.2 ⟨hr, hrows⟩)
      | some e => exact .pure hfreed
  | registerFeed feed =>
    refine Stateful.Yields.bind (Q := fun _ => True) (Stateful.Keeps.yields fun u hu => ?_)
      fun _ _ => .pure hnil
    unfold registerFeedDeferred
    split <;> exact ⟨hu.tables_eq, hu.disk_eq, hu.sent⟩
  | matchAttr | matchAttrMulti | matchVals =>
    refine Task.exec_choice trivial fun t' h => ?_
    cases h <;> first | exact ht | exact ⟨ht, nofun⟩
  | matchFile feeds job cls name =>
    refine Stateful.Yields.get.bind fun u hu => ?_
    split_ifs
    · exact .pure hnil
    · split
      · rename_i vals hvals
        exact .pure (List.forall_mem_singleton.2 ((hreads.congr hu).file _ _ _ _ _ hvals))
      · exact .pure (List.forall_mem_singleton.2 trivial)
      · exact .throw _
  | matchFeed feed job file step =>
    refine (MatchStep.exec_own hreads ht).bind fun next hnext => ?_
    cases next with
    | none => exact .pure hnil
    | some step' => exact .pure (List.forall_mem_singleton.2 (hnext step' rfl))
  | matchJobs => exact matchJobs_own hreads ht
  | markJobs feed found =>
    cases found with
    | nil => exact .pure hnil
    | cons m found =>
      refine (Stateful.Keeps.liftM _).yields.bind fun fed _ => ?_
      have hrest : Stateful.Yields (OwnState R P s) (fun p => ∀ t ∈ p.tasks, t.Own R P)
          (pure (.goes [.markJobs feed found]) : Serving Progress) :=
        .pure (List.forall_mem_singleton.2 trivial)
      split_ifs
      · exact (keeps_own_sending (sends_setFed _ _)).yields.bind fun _ _ => hrest
      · exact hrest
  | freed => exact .throw _

end Exec

/-! ## What a request leaves to be sent -/

section Serve

variable {H : Type} {env : Env} {plugins : List (FilePlugin H)} {past past' : Past} {job : Bytes}
  {R : Bytes → Bytes → Prop} {ctx : PsContext} {now : ℤ} {s s' : PsState}

theorem Source.mono {v : Attrval} (h : Source env plugins past job v)
    (hp : ∀ p ∈ past, p ∈ past') : Source env plugins past' job v := by
  induction h with
  | system hmem hinfo hname htext => exact .system (hp _ hmem) hinfo hname htext
  | registered hmem htrusted => exact .registered (hp _ hmem) htrusted
  | tag hmem htags hv => exact .tag (hp _ hmem) htags hv
  | recorded hmem hr howner htag => exact .recorded (hp _ hmem) hr howner htag
  | plugin hv => exact .plugin hv
  | file hmem hvals hv => exact .file (hp _ hmem) hvals hv
  | copied _ hcopy ih => exact ih.copied hcopy
  | kept _ hkeep ih => exact ih.kept hkeep
  | noDetail _ ih => exact ih.noDetail

theorem Tables.Grows.refl (t : Tables) : t.Grows t := ⟨fun _ => id, fun _ => id⟩

theorem RegisteredFor.mono {t t' : Tables} {owner : Bytes} (h : RegisteredFor t job owner)
    (ht : t.Grows t') : RegisteredFor t' job owner :=
  let ⟨o, regTime, ⟨j, hj, u, hu, hinfo⟩, ho⟩ := h
  ⟨o, regTime, ⟨j, ht.1 j hj, u, ht.2 u hu, hinfo⟩, ho⟩

/-- What is kept when users are stored under the hashes of their names, and jobs inserted. -/
structure Tables.Inserting (md5 : Bytes → Bytes) (I : Tables → Prop) : Prop where
  user : ∀ t owner, I t → I (storeUser t (md5 owner) owner)
  job : ∀ t row jobs, I t → t.jobs.insert row = some jobs → I { t with jobs }

theorem Tables.Grows.inserting (md5 : Bytes → Bytes) (t : Tables) :
    Tables.Inserting md5 t.Grows where
  user t' owner h := ⟨h.1, fun u hu => (grows_storeUser t' (md5 owner) owner).2 u (h.2 u hu)⟩
  job t' row jobs h hins := by
    refine ⟨fun j hj => ?_, h.2⟩
    change j ∈ jobs.rows
    rw [(Table.insert_eq_some.1 hins).2]
    exact List.mem_append_left _ (h.1 j hj)

theorem keeps_tables_registerJob {I : Tables → Prop} (hI : Tables.Inserting env.md5 I)
    {owner : Bytes} :
    Stateful.Keeps (fun s : PsState => I s.tables) (jppsbeRegisterJob env now job owner) := by
  intro s hs
  unfold jppsbeRegisterJob
  split
  · exact hs
  · exact hs
  · dsimp only
    split
    · rename_i jobs hins
      exact hI.job _ _ jobs (hI.user s.tables owner hs) hins
    · exact hI.user s.tables owner hs

/-- What a request does to the tables is to register a job. -/
theorem ServerRequest.serve_keeps {I : Tables → Prop} (hI : Tables.Inserting env.md5 I)
    {feeds : List Jpfeed} (r : ServerRequest) :
    Stateful.Keeps (fun s : PsState => I s.tables) (r.serve env feeds now) := by
  have happend : ∀ {job attrs}, Stateful.Keeps (fun s : PsState => I s.tables)
      (jppsbeAppendTags env job attrs) := keeps_jppsbeAppendTags fun _ _ h => h
  cases r with
  | registerJob ctx job owner =>
    refine Stateful.Keeps.bind ((Stateful.Keeps.liftM _).bind fun trusted => ?_) fun _ => .pure _
    split_ifs
    · refine (keeps_tables_registerJob hI).bind fun ret => ?_
      cases ret with
      | some e => exact .pure _
      | none => exact (Stateful.Keeps.liftM _).bind fun _ => .pure _
    · exact .pure _
  | recordTag ctx job tag =>
    refine Stateful.Keeps.bind (keeps_get.bind fun s =>
      (Stateful.Keeps.liftM _).bind fun owner => ?_) fun _ => .pure _
    cases owner with
    | none => exact .pure _
    | some owner =>
      refine (Stateful.Keeps.liftM _).bind fun attr => happend.bind fun ret => ?_
      cases ret with
      | some e => exact .pure _
      | none => exact (Stateful.Keeps.liftM _).bind fun _ => .pure _
  | recordMultiTags ctx jobs =>
    refine Stateful.Keeps.bind (Stateful.Keeps.bind ?_ fun recorded => ?_) fun _ => .pure _
    · induction jobs with
      | nil => exact .pure _
      | cons j jobs ih =>
        refine keeps_get.bind fun s => (Stateful.Keeps.liftM _).bind fun owner => ?_
        cases owner with
        | none => exact .pure _
        | some owner =>
          rw [Stateful.mapM_liftM]
          refine (Stateful.Keeps.liftM _).bind fun attrs => happend.bind fun ret => ?_
          cases ret with
          | some e => exact .pure _
          | none => exact ih.bind fun recorded => by cases recorded <;> exact .pure _
    · cases recorded with
      | none => exact .pure _
      | some recorded => exact (Stateful.Keeps.liftM _).bind fun _ => .pure _
  | commitUpload job cls name => exact .pure _
  | feedIndex buf r => exact (Stateful.Keeps.liftM _).bind fun _ => .pure _

/-- A request leaves the rows of the tables. -/
theorem ServerRequest.serve_grows {t : Tables} {feeds : List Jpfeed} (r : ServerRequest) :
    Stateful.Keeps (fun s : PsState => t.Grows s.tables) (r.serve env feeds now) :=
  r.serve_keeps (Tables.Grows.inserting env.md5 t)

/-- The jobs that are recorded are those of the request, with their own tags. -/
theorem mem_recordJobs {jobs : List (Bytes × List SoapTag)}
    {recorded : List (Bytes × List Attrval)}
    (h : recordJobs env ctx now jobs s = .ok (some recorded) s') : ∀ j ∈ recorded,
      ∃ tags owner, (j.1, tags) ∈ jobs ∧ tags.mapM (tagAttrval · now) = .ok j.2 ∧
        taggedOwner ctx s j.1 = .ok (some owner) := by
  induction jobs generalizing s recorded with
  | nil =>
    obtain ⟨hr, -⟩ := Stateful.pure_eq_ok.1 h
    exact Option.some.inj hr ▸ nofun
  | cons jt jobs ih =>
    obtain ⟨job, tags⟩ := jt
    obtain ⟨owner, attrs, disk, rest, howner, hattrs, -, hrest, rfl⟩ :=
      recordJobs_cons_eq_some.1 h
    refine List.forall_mem_cons.2 ⟨⟨tags, owner, List.mem_cons_self, hattrs, howner⟩, ?_⟩
    intro j hj
    obtain ⟨tags', owner', hmem, htags, hj'⟩ := ih hrest j hj
    -- the tables are those before the first job was tagged
    exact ⟨tags', owner', List.mem_cons_of_mem _ hmem, htags, hj'⟩

theorem mem_matchAttr {attrs out : List Attrval} (h : matchAttr attrs = .ok out) :
    ∀ w ∈ out, ∃ v ∈ attrs, keepAttr v = .ok w := (Exec.mem_of_mapM h).2

/-- What a request leaves to be sent of a job is of this job. -/
theorem ServerRequest.serve_own {st : ServerState} {i : ℕ} {r : ServerRequest}
    {feeds : List Jpfeed} {new : List Task} {ps : PsState} (hmem : (st, .request i now r) ∈ past)
    (h : r.serve env feeds now st.ps = .ok (some new) ps) :
    ∀ t ∈ new, t.Own R (Source env plugins past) := by
  have hdeferred := (serve_eq_ok h).2
  cases r with
  | registerJob ctx job owner =>
    obtain ⟨ds, u, hserve, h⟩ := Stateful.bind_eq_ok.1 h
    obtain ⟨hds, rfl⟩ := Stateful.pure_eq_ok.1 h
    obtain ⟨ds, rfl, rfl⟩ := Option.map_eq_some_iff.1 hds
    obtain ⟨trusted, u', ht, hserve⟩ := Stateful.bind_eq_ok.1 hserve
    obtain ⟨htrusted, rfl⟩ := Stateful.liftM_eq_ok.1 ht
    intro t ht
    cases hdeferred t ht with
    | registerJob hattrs =>
      split_ifs at hserve with htrue
      · subst htrue
        intro w hw
        obtain ⟨v, hv, hkeep⟩ := mem_matchAttr hattrs w hw
        obtain rfl := List.mem_singleton.1 hv
        exact .kept (.registered hmem htrusted) hkeep
      · cases (Stateful.pure_eq_ok.1 hserve).1
  | recordTag ctx job tag =>
    obtain ⟨ds, u, hserve, h⟩ := Stateful.bind_eq_ok.1 h
    obtain ⟨hds, rfl⟩ := Stateful.pure_eq_ok.1 h
    obtain ⟨ds, rfl, rfl⟩ := Option.map_eq_some_iff.1 hds
    obtain ⟨owner, attr, disk, attrs, howner, hattr, -, hattrs, rfl, -⟩ :=
      serveRecordTag_eq_some hserve
    refine List.forall_mem_singleton.2 fun w hw => ?_
    obtain ⟨v, hv, hkeep⟩ := mem_matchAttr hattrs w hw
    obtain rfl := List.mem_singleton.1 hv
    exact .kept (@Source.recorded _ _ _ _ _ _ _ _ _ _ _ [] _ _ hmem (.inl rfl) howner hattr) hkeep
  | recordMultiTags ctx jobs =>
    obtain ⟨ds, u, hserve, h⟩ := Stateful.bind_eq_ok.1 h
    obtain ⟨hds, rfl⟩ := Stateful.pure_eq_ok.1 h
    obtain ⟨ds, rfl, rfl⟩ := Option.map_eq_some_iff.1 hds
    obtain ⟨recorded?, u', hrec, hserve⟩ := Stateful.bind_eq_ok.1 hserve
    cases recorded? with
    | none => cases (Stateful.pure_eq_ok.1 hserve).1
    | some recorded =>
      obtain ⟨kept, u', hk, hserve⟩ := Stateful.bind_eq_ok.1 hserve
      obtain ⟨hkept, rfl⟩ := Stateful.liftM_eq_ok.1 hk
      obtain ⟨hds, -⟩ := Stateful.pure_eq_ok.1 hserve
      obtain rfl := Option.some.inj hds
      refine List.forall_mem_singleton.2 fun j hj w hw => ?_
      obtain ⟨jobs', hjobs', hcopied⟩ := Exec.bind_eq_ok.1 hkept
      obtain ⟨-, rfl⟩ := elements_eq_ok.1 hjobs'
      obtain ⟨⟨job, attrs⟩, hjob, hcopy⟩ := (Exec.mem_of_mapM hcopied).2 j hj
      obtain ⟨attrs', hattrs', hvals⟩ := Exec.bind_eq_ok.1 hcopy
      obtain ⟨-, rfl⟩ := elements_eq_ok.1 hattrs'
      obtain ⟨copies, hcopies, hj'⟩ := Exec.bind_eq_ok.1 hvals
      obtain rfl := Except.ok.inj hj'
      obtain ⟨x, hx, rfl⟩ := List.mem_map.1 hw
      obtain ⟨v, hv, hkeep⟩ := (Exec.mem_of_mapM hcopies).2 x hx
      obtain ⟨tags, owner, htags, hmap, howner⟩ := mem_recordJobs hrec _ hjob
      obtain ⟨tag, htag, hval⟩ := (Exec.mem_of_mapM hmap).2 v hv
      exact .noDetail (.kept (.recorded hmem (.inr ⟨jobs, rfl, htags, htag⟩) howner hval) hkeep)
  | commitUpload job cls name =>
    intro t ht
    cases hdeferred t ht
    trivial
  | feedIndex buf r =>
    intro t ht
    cases hdeferred t ht <;> trivial

/-- What is read of the storage before a step that was taken. -/
theorem readsOwn_of_mem {st : ServerState} {a : ServerAction} (hmem : (st, a) ∈ past) {t : Tables}
    (ht : st.ps.tables.Grows t) :
    ReadsOwn (RegisteredFor t) (Source env plugins past) env plugins st.ps where
  owner job owner regTime hinfo := RegisteredFor.mono ⟨owner, regTime, hinfo, rfl⟩ ht
  values job names out hget v hv := by
    obtain ⟨owner, regTime, name, hinfo, hname, rfl⟩ | ⟨-, ⟨tags, htags, hv⟩ | hv⟩ :=
      mem_getAttrs hget v hv
    · exact .system hmem hinfo hname (.inl ⟨rfl, rfl⟩)
    · exact .tag hmem htags hv
    · exact .plugin hv
  rows qry names rows hrows row hrow := by
    obtain ⟨hall, hfound⟩ := mem_beQuery hrows
    obtain ⟨j, hj, u, hu, huserid, rfl⟩ := hfound row hrow
    have hinfo : JobInfoIs st.ps.tables j.dgJobid u.certSubj j.regTime :=
      ⟨j, hj, u, hu, rfl, huserid, rfl, rfl⟩
    refine ⟨fun v hv => ?_, fun owner howner => ?_⟩
    · obtain ⟨name, hname, rfl⟩ := List.mem_map.1 hv
      exact .system hmem hinfo (List.all_eq_true.1 hall name hname) (.inr ⟨rfl, rfl⟩)
    · obtain ⟨v, hv, howner⟩ := Exec.bind_eq_ok.1 howner
      obtain rfl := Except.ok.inj howner
      refine RegisteredFor.mono ⟨u.certSubj, j.regTime, hinfo, ?_⟩ ht
      rw [beValues, List.map_cons, List.find?_cons_of_pos (by rfl)] at hv
      rw [← Option.some.inj (Exec.deref_eq_ok.1 hv), cstr_cstr]
      rfl
  file feeds job cls name vals hvals v hv := .file hmem hvals hv
  copied job v w := .copied

end Serve

/-! ## Runs -/

section Runs

variable {H : Type} {env : Env} {plugins : List (FilePlugin H)}

/-- The storage with its history. -/
def provenanceSystem (env : Env) (plugins : List (FilePlugin H)) :
    System (ServerState × Past) ServerAction :=
  System.recorded (serverSystem env plugins) [] fun s a _ past => past ++ [(s, a)]

/-- What was sent is own, and so is what is left to be sent. -/
structure OwnServer (env : Env) (plugins : List (FilePlugin H)) (s : ServerState × Past) :
    Prop where
  sent : ∀ m ∈ s.1.ps.sent, OwnMessage (RegisteredFor s.1.ps.tables) (Source env plugins s.2) m
  slaves : s.1.All (fun _ => True) (Task.Own (RegisteredFor s.1.ps.tables) (Source env plugins s.2))

theorem OwnServer.step {s t : ServerState × Past} {a : ServerAction} (hs : OwnServer env plugins s)
    (h : (provenanceSystem env plugins).step s a t) : OwnServer env plugins t := by
  obtain ⟨s, past⟩ := s
  obtain ⟨t, past'⟩ := t
  obtain ⟨hstep, rfl⟩ : serverStep env plugins s a = some t ∧ past' = past ++ [(s, a)] := h
  obtain ⟨hsent, hslaves⟩ := hs
  have hmem : (s, a) ∈ past ++ [(s, a)] := List.mem_append_right _ (List.mem_singleton_self _)
  have hsource : ∀ job v, Source env plugins past job v →
      Source env plugins (past ++ [(s, a)]) job v :=
    fun job v hv => hv.mono fun p => List.mem_append_left _
  -- what was own before is own behind a step that leaves the rows of the tables
  have hold : ∀ ps : PsState, s.ps.tables.Grows ps.tables →
      (∀ m ∈ s.ps.sent, OwnMessage (RegisteredFor ps.tables)
        (Source env plugins (past ++ [(s, a)])) m) ∧
      s.All (fun _ => True) (Task.Own (RegisteredFor ps.tables)
        (Source env plugins (past ++ [(s, a)]))) := fun ps hgrow =>
    ⟨fun m hm jr hjr => (hsent m hm jr hjr).mono (fun _ _ hr => hr.mono hgrow) hsource,
      hslaves.mono (fun _ => id) fun _ ht => ht.mono (fun _ _ hr => hr.mono hgrow) hsource⟩
  have hsame := hold s.ps (.refl _)
  cases serverStep_effect hstep with
  | starts hload =>
    refine ⟨hsame.1, hsame.2.set fun sl hsl => ?_⟩
    exact Option.some.inj hsl ▸ ⟨fun _ _ => trivial, nofun⟩
  | startsNot => exact ⟨hsame.1, hsame.2.set nofun⟩
  | @serves i now r feeds tasks new ps hslave hserve =>
    have hgrow := @ServerRequest.serve_grows env now s.ps.tables feeds r s.ps (.refl _)
    rw [hserve] at hgrow
    obtain ⟨hbox, -⟩ := (ServerRequest.serve_eq_ok hserve).1
    obtain ⟨hsent', hslaves'⟩ := hold ps hgrow
    refine ⟨fun m hm => hsent' m ((congrArg Outbox.sent hbox) ▸ hm), ServerState.All.set
      (s := { s with promised := s.promised ++ r.promise env }) hslaves' fun sl hsl => ?_⟩
    obtain rfl := Option.some.inj hsl
    exact ⟨fun _ _ => trivial, List.forall_mem_append.2
      ⟨(hslaves' i _ hslave).2, ServerRequest.serve_own hmem hserve⟩⟩
  | @refuses i now r slave slave' ps hslave hslave' hserve =>
    have hgrow := @ServerRequest.serve_grows env now s.ps.tables slave.feeds r s.ps (.refl _)
    obtain ⟨hbox, -⟩ := @ServerRequest.serve_left env slave.feeds now r s.ps
    rw [hserve] at hgrow hbox
    obtain ⟨hsent', hslaves'⟩ := hold ps hgrow
    refine ⟨fun m hm => hsent' m ((congrArg Outbox.sent hbox) ▸ hm), hslaves'.set fun sl hsl => ?_⟩
    obtain rfl | rfl := hslave'
    · cases hsl
    · exact Option.some.inj hsl ▸ hslaves' i slave hslave
  | @execs i now feeds task tasks p ps busy hslave hexec =>
    -- what is read is recorded as read in the state before the step
    obtain ⟨htask, hrest⟩ := List.forall_mem_cons.1 (hsame.2 i _ hslave).2
    have hreads := @readsOwn_of_mem _ env plugins _ _ _ hmem _ (.refl _)
    have hyields : Stateful.Yields _ _ (task.exec env plugins now) := Task.exec_own hreads htask
    have hleft := hyields.1 s.ps ⟨rfl, rfl, hsame.1⟩
    rw [hexec] at hleft
    obtain ⟨htables, -, hsent'⟩ := hleft
    refine ⟨htables ▸ hsent', ServerState.All.set (htables ▸ hsame.2) fun sl hsl => ?_⟩
    obtain rfl := Option.some.inj hsl
    have hnew := hyields.2 s.ps ⟨rfl, rfl, hsame.1⟩ p ps hexec
    exact ⟨fun _ _ => trivial, htables ▸ List.forall_mem_append.2 ⟨hnew, hrest⟩⟩
  | @execsNot i now feeds task tasks e ps hslave hexec =>
    obtain ⟨htask, -⟩ := List.forall_mem_cons.1 (hsame.2 i _ hslave).2
    have hreads := @readsOwn_of_mem _ env plugins _ _ _ hmem _ (.refl _)
    have hyields : Stateful.Yields _ _ (task.exec env plugins now) := Task.exec_own hreads htask
    have hleft := hyields.1 s.ps ⟨rfl, rfl, hsame.1⟩
    rw [hexec] at hleft
    obtain ⟨htables, -, hsent'⟩ := hleft
    exact ⟨htables ▸ hsent', ServerState.All.set (htables ▸ hsame.2) nofun⟩
  | @finishes i now feeds hslave =>
    refine ⟨hsame.1, hsame.2.set fun sl hsl => ?_⟩
    exact Option.some.inj hsl ▸ ⟨fun _ _ => trivial, nofun⟩
  | @uploads files disk =>
    obtain ⟨hsent', hslaves'⟩ := hold { s.ps with tables := { s.ps.tables with files }, disk }
      ⟨fun _ => id, fun _ => id⟩
    exact ⟨hsent', hslaves'⟩
  | refreshes => exact ⟨hsame.1, hsame.2⟩
  | purges => exact ⟨hsame.1, hsame.2⟩

/-- In every run, a record that is sent has an owner the job is registered for, and values
    that came to the storage as values of this job. -/
theorem own_of_reachable {s : ServerState × Past}
    (h : (provenanceSystem env plugins).Reachable System.Always s) :
    ∀ m ∈ s.1.ps.sent, OwnMessage (RegisteredFor s.1.ps.tables) (Source env plugins s.2) m := by
  refine (h.invariant (I := OwnServer env plugins) ?_ fun s a t hs _ hstep => hs.step hstep).sent
  rintro ⟨s, past⟩ ⟨⟨hsent, -, -, hslaves, -⟩, -⟩
  refine ⟨fun m hm => ?_, fun i slave hslave => nomatch (hslaves i).symm.trans hslave⟩
  rw [hsent] at hm
  cases hm

end Runs

/-- The color of the job of alice is sent as hers. -/
theorem own_of_reachable_sample : ∃ (s : ServerState) (past : Past), s.ps.sent.length = 1 ∧
    ∀ m ∈ s.ps.sent, OwnMessage (RegisteredFor s.ps.tables)
      (Source sampleEnv ([] : List (FilePlugin Unit)) past) m := by
  obtain ⟨s, hrun, hs⟩ := Option.any_eq_true _ _ |>.1 recordTag_run
  have hreach : (serverSystem sampleEnv ([] : List (FilePlugin Unit))).Reachable System.Always s :=
    System.Reachable.mono ⟨_, serverStart_init, .of_foldlM (fun _ _ _ h => h) hrun⟩
      fun _ _ (_ : looks _ _ = true) => trivial
  obtain ⟨past, hpast⟩ := System.reachable_iff_recorded.1 hreach
  exact ⟨s, past, of_decide_eq_true hs, own_of_reachable hpast⟩

end JobProvenance
