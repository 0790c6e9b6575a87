import JobProvenance.Lib.DigitOrder
import JobProvenance.Primary.FeedTable
import JobProvenance.Primary.MatchRace
import JobProvenance.Primary.Plugins

/-!
# The server

A primary storage runs as any number of slaves. Each loads the feeds when it starts,
serves requests, and takes the actions that a request has deferred before it serves
the next. An action that fails is left to be taken again after the next request, and
those behind it with it.

* `Task`: what is left of the deferred actions, in parts between which other slaves
  take theirs: the rows of a history, the jobs of a request, the feeds of a slave,
  and the steps of `match_feed`; `Task.exec` takes such a part;
* `serverSystem`: the runs, from an empty storage;
* `Task.exec_choice`: the parts that change nothing, and what they leave to be done.
-/

namespace JobProvenance

/-! ## Files -/

section Files

variable {H : Type} (plugins : List (FilePlugin H))

/-- The plugins of a class, each once for every time it names it. -/
def fplugLookupByclass (cls : Bytes) : List (FilePlugin H) :=
  plugins.flatMap fun p => (p.types.filter (·.1 = cls)).map fun _ => p

/-- All attributes of two lists, in order, and each once; there have to be some. -/
def attrUnion (a b : List Bytes) : Exec (List Bytes) :=
  let out := ((a ++ b).mergeSort fun x y => strcmp x y ≠ .gt).dedup
  elements out

/-- The values a plugin finds in a file for some attributes, each time it names the
    class of the file; it is ignored where it fails. -/
def pluginValues (attrs : List Bytes) (cls : Bytes) (h : Fhandle) (p : FilePlugin H) :
    Exec (List Attrval) := do
  let vals ← (p.types.filter (·.1 = cls)).mapM fun _ => ignoringErrors do
    let ph ← p.open h cls
    let found ← attrs.mapM fun attr => ignoringErrors (p.attr ph attr)
    return found.flatten
  return vals.flatten

/-- The values the plugins find in a file for the attributes of all feeds. -/
def fileVals (env : Env) (feeds : List Jpfeed) (job cls : Bytes) (name : Option Bytes)
    (s : PsState) : Exec (List Attrval) := do
  let attrs ← feeds.foldlM (fun attrs f => attrUnion attrs f.attrs) []
  let (_, h) ← openFile env.config s.tables.jobs.rows s.disk job cls name O_RDONLY
  let vals ← (fplugLookupByclass plugins cls).mapM (pluginValues attrs cls h)
  return vals.flatten

end Files

/-! ## Deferred actions, part by part -/

/-- What is left to be done of a deferred action. The feeds are those of the slave that
    are still to be looked at; a job of a file is matched whatever the feeds ask for. -/
inductive Task
  | runFeed (feed : Jpfeed)
  | feedRows (f : HistoryFeed) (stack : Stack) (rows : List (Bytes × List Attrval))
  | registerFeed (feed : Jpfeed)
  | matchAttr (feeds : List Jpfeed) (job : Bytes) (attrs : List Attrval)
  | matchAttrMulti (feeds : List Jpfeed) (jobs : List (Bytes × List Attrval))
  | matchFile (feeds : List Jpfeed) (job cls : Bytes) (name : Option Bytes)
  | matchVals (feeds : List Jpfeed) (job : Bytes) (vals : List Attrval)
  | matchFeed (feed : Jpfeed) (job : Bytes) (file : Bool) (step : MatchStep)
  | matchJobs (feed : Jpfeed) (jobs : List (Bytes × List Attrval)) (matched : List MatchedJob)
  | markJobs (feed : Jpfeed) (matched : List MatchedJob)
  -- a history feed that has failed is called again, but is freed already
  | freed

/-- What a deferred action is before it is taken. -/
def Deferred.task (feeds : List Jpfeed) : Deferred → Task
  | .runFeed feed => .runFeed feed
  | .registerFeed feed => .registerFeed feed
  | .matchAttr job attrs => .matchAttr feeds job attrs
  | .matchAttrMulti jobs => .matchAttrMulti feeds jobs
  | .matchFile job vals => .matchVals feeds job vals

/-- How a part ends: other parts are to be done in its place, or the action has failed
    and is to be taken again as it is then. -/
inductive Progress
  | goes (tasks : List Task)
  | fails (task : Task)

/-- The tasks there are then. -/
def Progress.tasks : Progress → List Task
  | .goes tasks => tasks
  | .fails task => [task]

section Server

variable {H : Type} (env : Env) (plugins : List (FilePlugin H))

/-- Does the next part of a deferred action. -/
def Task.exec (now : ℤ) : Task → Serving Progress
  | .runFeed feed => do
    let s ← get
    match splitFeed feed with
    | .error (.errno _) => return .fails .freed
    | .error e => throw e
    | .ok f =>
      match beQuery s.tables.jobs.rows s.tables.users.rows f.metaQry
        (GLITE_JP_ATTR_OWNER :: f.metaAttr) with
      | .error (.errno .ENOENT) => return .goes []
      | .error (.errno _) => return .fails .freed
      | .error e => throw e
      | .ok rows => return .goes [.feedRows f .empty rows]
  | .feedRows f stack [] => do
    match ← drainFeed env.answers f stack true with
    | (none, _) => return .goes []
    | (some _, _) => return .fails .freed
  | .feedRows f stack ((job, metadata) :: rows) => do
    let s ← get
    match ← feedQueryCallback env.answers (getAttrs env s) f stack job metadata with
    | (none, stack) => return .goes [.feedRows f stack rows]
    | (some _, _) => return .fails .freed
  | .registerFeed feed => do
    registerFeedDeferred env now feed
    return .goes []
  | .matchAttr [] _ _ => return .goes []
  | .matchAttr (f :: feeds) job attrs => do
    let names ← elements f.attrs
    if asksFor names attrs then
      return .goes [.matchFeed f job false (.matching attrs), .matchAttr feeds job attrs]
    else return .goes [.matchAttr feeds job attrs]
  | .matchAttrMulti [] _ => return .goes []
  | .matchAttrMulti (f :: feeds) jobs => do
    let names ← elements f.attrs
    if asksForAny names jobs then return .goes [.matchJobs f jobs [], .matchAttrMulti feeds jobs]
    else return .goes [.matchAttrMulti feeds jobs]
  | .matchFile feeds job cls name => do
    let s ← get
    if feeds = [] ∨ (fplugLookupByclass plugins cls).isEmpty then return .goes []
    else
      match fileVals plugins env feeds job cls name s with
      | .ok vals => return .goes [.matchVals feeds job vals]
      | .error (.errno _) => return .fails (.matchFile feeds job cls name)
      | .error e => throw e
  | .matchVals [] _ _ => return .goes []
  | .matchVals (f :: feeds) job vals =>
    return .goes [.matchFeed f job true (.matching vals), .matchVals feeds job vals]
  | .matchFeed feed job file step => do
    match ← step.exec env feed job with
    | some step => return .goes [.matchFeed feed job file step]
    | none => return .goes []
  | .matchJobs feed ((job, attrs) :: jobs) matched => do
    let s ← get
    if ← isFeedMatching (getAttrs env s) feed job attrs then
      let fed := (checkFed s.fed feed.id job).toOption
      let owner ← ownerOf s job
      let owner ← Exec.deref owner
      return .goes [.matchJobs feed jobs (matched ++ [⟨job, owner, attrs, fed⟩])]
    else return .goes [.matchJobs feed jobs matched]
  | .matchJobs feed [] matched => do
    let ret ← multiFeed env.answers feed.id false matched.length feed.destination
      (matched.map (·.job)) (matched.map (·.owner)) (matched.map (·.attrs))
    if ret = none then return .goes [.markJobs feed matched] else return .goes []
  | .markJobs _ [] => return .goes []
  | .markJobs feed (m :: matched) => do
    let fed ← Exec.deref m.fed
    if fed ≠ 0 then
      let _ ← setFed feed.id m.job
    return .goes [.markJobs feed matched]
  | .freed => throw .fault

/-! ## Requests -/

/-- A request; of an upload that is committed, the file, and of a feed, the text its
    identifier is made from. -/
inductive ServerRequest
  | registerJob (ctx : PsContext) (job owner : Bytes)
  | recordTag (ctx : PsContext) (job : Bytes) (tag : SoapTag)
  | recordMultiTags (ctx : PsContext) (jobs : List (Bytes × List SoapTag))
  | commitUpload (job cls : Bytes) (name : Option Bytes)
  | feedIndex (buf : Bytes) (r : FeedRequest)

/-- What is deferred by a request to a slave with some feeds; `none` when it is refused. -/
def ServerRequest.serve (feeds : List Jpfeed) (now : ℤ) : ServerRequest → Serving (Option (List Task))
  | .registerJob ctx job owner => do
    let ds ← serveRegisterJob env ctx now job owner
    return ds.map (·.map (Deferred.task feeds))
  | .recordTag ctx job tag => do
    let ds ← serveRecordTag env ctx now job tag
    return ds.map (·.map (Deferred.task feeds))
  | .recordMultiTags ctx jobs => do
    let ds ← serveRecordMultiTags env ctx now jobs
    return ds.map (·.map (Deferred.task feeds))
  | .commitUpload job cls name => return some [.matchFile feeds job cls name]
  | .feedIndex buf r => do
    let ds ← serveFeedIndex now (env.md5 buf) r
    return ds.map (·.map (Deferred.task feeds))

/-- The feed that is promised, by its identifier. -/
def ServerRequest.promise : ServerRequest → List (Bytes × FeedRequest)
  | .feedIndex buf r => [(env.md5 buf, r)]
  | _ => []

/-! ## Runs -/

/-- A slave: the feeds it has loaded, and what is left of the deferred actions; while it
    is busy with these it serves no request. -/
structure Slave where
  feeds : List Jpfeed
  tasks : List Task
  busy : Bool

/-- The storage, the slaves that run, and the feeds that were promised. -/
structure ServerState where
  ps : PsState
  slaves : ℕ → Option Slave
  promised : List (Bytes × FeedRequest)

/-- A step. A slave starts, maybe in the place of one that has ended, serves a request,
    or does the next part of a deferred action. Uploads change files and their table,
    index servers refresh feeds, and feeds are purged with their marks. -/
inductive ServerAction
  | start (i : ℕ) (now : ℤ) (purged : Bool)
  | request (i : ℕ) (now : ℤ) (r : ServerRequest)
  | exec (i : ℕ) (now : ℤ)
  | upload (files : Table FileRow FileRow.Clash) (disk : Disk)
  | refresh (cond : FeedsRow → Bool) (expires : ℤ)
  | purge (feeds : FeedsRow → Bool) (marks : FedRow → Bool)

/-- The state when a slave has changed. -/
def ServerState.set (s : ServerState) (ps : PsState) (i : ℕ) (slave : Option Slave) :
    ServerState :=
  { s with ps, slaves := Function.update s.slaves i slave }

/-- The feeds of a slave that starts; it has none when the purge before has failed. -/
def loadedFeeds (now : ℤ) (purged : Bool) (s : PsState) : Exec (List Jpfeed) :=
  if purged then readFeeds env.escape env.unescape now s.feeds else .ok []

/-- The step of an action, if it can be taken. A slave that leaves the language ends. -/
def serverStep (s : ServerState) : ServerAction → Option ServerState
  | .start i now purged =>
    match loadedFeeds env now purged s.ps with
    | .ok feeds => some (s.set s.ps i (some ⟨feeds, [], false⟩))
    | .error _ => some (s.set s.ps i none)
  | .request i now r =>
    match s.slaves i with
    | some ⟨feeds, tasks, false⟩ =>
      match r.serve env feeds now s.ps with
      | .ok (some new) ps =>
        some { s.set ps i (some ⟨feeds, tasks ++ new, true⟩) with
          promised := s.promised ++ r.promise env }
      | .ok none ps => some (s.set ps i (some ⟨feeds, tasks, false⟩))
      | .error (.errno _) ps => some (s.set ps i (some ⟨feeds, tasks, false⟩))
      | .error _ ps => some (s.set ps i none)
    | _ => none
  | .exec i now =>
    match s.slaves i with
    | some ⟨feeds, task :: tasks, true⟩ =>
      match task.exec env plugins now s.ps with
      | .ok (.goes new) ps => some (s.set ps i (some ⟨feeds, new ++ tasks, true⟩))
      | .ok (.fails task) ps => some (s.set ps i (some ⟨feeds, task :: tasks, false⟩))
      | .error _ ps => some (s.set ps i none)
    | some ⟨feeds, [], true⟩ => some (s.set s.ps i (some ⟨feeds, [], false⟩))
    | _ => none
  | .upload files disk =>
    some { s with ps := { s.ps with tables := { s.ps.tables with files }, disk } }
  | .refresh cond expires =>
    some { s with ps := { s.ps with feeds := refreshRows s.ps.feeds cond expires } }
  | .purge feeds marks =>
    some { s with ps := { s.ps with
      feeds := s.ps.feeds.delete feeds
      fed := s.ps.fed.delete marks } }

/-- A primary storage in which there is no feed, and from which nothing was sent. -/
def serverSystem : System ServerState ServerAction where
  init s := s.ps.sent = [] ∧ s.ps.fed = .empty ∧ s.ps.feeds = .empty ∧ (∀ i, s.slaves i = none) ∧
    s.promised = []
  step s a t := serverStep env plugins s a = some t

/-! ## Steps -/

/-- What a step does. -/
inductive ServerEffect (s : ServerState) : ServerAction → ServerState → Prop
  | starts {i : ℕ} {now : ℤ} {purged : Bool} {feeds : List Jpfeed} :
      loadedFeeds env now purged s.ps = .ok feeds →
      ServerEffect s (.start i now purged) (s.set s.ps i (some ⟨feeds, [], false⟩))
  | startsNot {i : ℕ} {now : ℤ} {purged : Bool} :
      ServerEffect s (.start i now purged) (s.set s.ps i none)
  | serves {i : ℕ} {now : ℤ} {r : ServerRequest} {feeds : List Jpfeed} {tasks new : List Task}
      {ps : PsState} : s.slaves i = some ⟨feeds, tasks, false⟩ →
      r.serve env feeds now s.ps = .ok (some new) ps →
      ServerEffect s (.request i now r)
        { s.set ps i (some ⟨feeds, tasks ++ new, true⟩) with
          promised := s.promised ++ r.promise env }
  | refuses {i : ℕ} {now : ℤ} {r : ServerRequest} {slave : Slave} {slave' : Option Slave}
      {ps : PsState} : s.slaves i = some slave → slave' = none ∨ slave' = some slave →
      Stateful.left (r.serve env slave.feeds now s.ps) = ps →
      ServerEffect s (.request i now r) (s.set ps i slave')
  | execs {i : ℕ} {now : ℤ} {feeds : List Jpfeed} {task : Task} {tasks : List Task}
      {p : Progress} {ps : PsState} {busy : Bool} : s.slaves i = some ⟨feeds, task :: tasks, true⟩ →
      task.exec env plugins now s.ps = .ok p ps →
      ServerEffect s (.exec i now) (s.set ps i (some ⟨feeds, p.tasks ++ tasks, busy⟩))
  | execsNot {i : ℕ} {now : ℤ} {feeds : List Jpfeed} {task : Task} {tasks : List Task}
      {e : Stop} {ps : PsState} : s.slaves i = some ⟨feeds, task :: tasks, true⟩ →
      task.exec env plugins now s.ps = .error e ps →
      ServerEffect s (.exec i now) (s.set ps i none)
  | finishes {i : ℕ} {now : ℤ} {feeds : List Jpfeed} : s.slaves i = some ⟨feeds, [], true⟩ →
      ServerEffect s (.exec i now) (s.set s.ps i (some ⟨feeds, [], false⟩))
  | uploads {files : Table FileRow FileRow.Clash} {disk : Disk} :
      ServerEffect s (.upload files disk)
        { s with ps := { s.ps with tables := { s.ps.tables with files }, disk } }
  | refreshes {cond : FeedsRow → Bool} {expires : ℤ} :
      ServerEffect s (.refresh cond expires)
        { s with ps := { s.ps with feeds := refreshRows s.ps.feeds cond expires } }
  | purges {feeds : FeedsRow → Bool} {marks : FedRow → Bool} :
      ServerEffect s (.purge feeds marks) { s with ps := { s.ps with
        feeds := s.ps.feeds.delete feeds
        fed := s.ps.fed.delete marks } }

variable {env plugins} {s t : ServerState} {a : ServerAction}

theorem serverStep_effect (h : serverStep env plugins s a = some t) :
    ServerEffect env plugins s a t := by
  cases a with
  | start i now purged =>
    simp only [serverStep] at h
    split at h
    · rename_i feeds hfeeds
      obtain rfl := Option.some.inj h
      exact .starts hfeeds
    · obtain rfl := Option.some.inj h
      exact .startsNot
  | request i now r =>
    simp only [serverStep] at h
    split at h
    · rename_i feeds tasks hslave
      split at h
      all_goals
        rename_i hserve
        obtain rfl := Option.some.inj h
      · exact .serves hslave hserve
      · exact .refuses hslave (.inr rfl) (congrArg Stateful.left hserve)
      · exact .refuses hslave (.inr rfl) (congrArg Stateful.left hserve)
      · exact .refuses hslave (.inl rfl) (congrArg Stateful.left hserve)
    · cases h
  | exec i now =>
    simp only [serverStep] at h
    split at h
    · rename_i feeds task tasks hslave
      split at h
      all_goals
        rename_i hexec
        obtain rfl := Option.some.inj h
      · exact .execs hslave hexec
      · exact .execs hslave hexec
      · exact .execsNot hslave hexec
    · rename_i feeds hslave
      obtain rfl := Option.some.inj h
      exact .finishes hslave
    · cases h
  | upload files disk =>
    obtain rfl := Option.some.inj h
    exact .uploads
  | refresh cond expires =>
    obtain rfl := Option.some.inj h
    exact .refreshes
  | purge feeds marks =>
    obtain rfl := Option.some.inj h
    exact .purges

/-! ## What requests defer -/

variable (env) in
/-- What a request defers when it is served by a slave with some feeds. -/
inductive DeferredBy (feeds : List Jpfeed) (now : ℤ) : ServerRequest → Task → Prop
  | registerJob {ctx : PsContext} {job owner : Bytes} {attrs : List Attrval} :
      matchAttr [systemValue GLITE_JP_ATTR_OWNER owner now] = .ok attrs →
      DeferredBy feeds now (.registerJob ctx job owner) (.matchAttr feeds job attrs)
  | recordTag {ctx : PsContext} {job : Bytes} {tag : SoapTag} {attr : Attrval}
      {attrs : List Attrval} : tagAttrval tag now = .ok attr → matchAttr [attr] = .ok attrs →
      DeferredBy feeds now (.recordTag ctx job tag) (.matchAttr feeds job attrs)
  | recordMultiTags {ctx : PsContext} {jobs : List (Bytes × List SoapTag)}
      {kept : List (Bytes × List Attrval)} :
      DeferredBy feeds now (.recordMultiTags ctx jobs) (.matchAttrMulti feeds kept)
  | commitUpload {job cls : Bytes} {name : Option Bytes} :
      DeferredBy feeds now (.commitUpload job cls name) (.matchFile feeds job cls name)
  | history {buf destination : Bytes} {r : FeedRequest} {qry : List QueryRec} {feed : Jpfeed} :
      r.destination = some destination → r.conditions.mapM s2jpQuery = .ok qry →
      makeJpfeed destination r.attributes qry (env.md5 buf) 0 = .ok feed →
      DeferredBy feeds now (.feedIndex buf r) (.runFeed { feed with continuous := r.continuous })
  | continuous {buf destination : Bytes} {r : FeedRequest} {qry : List QueryRec} {feed : Jpfeed} :
      r.destination = some destination → r.conditions.mapM s2jpQuery = .ok qry →
      makeJpfeed destination r.attributes qry (env.md5 buf) (now + FEED_TTL) = .ok feed →
      DeferredBy feeds now (.feedIndex buf r) (.registerFeed feed)

/-- What is as a request finds it: what was sent, the marks, and the feeds. -/
def SameFeeds (box : Outbox) (table : Table FeedsRow FeedsRow.Clash) (s : PsState) : Prop :=
  s.toOutbox = box ∧ s.feeds = table

section Defers

variable {box : Outbox} {table : Table FeedsRow FeedsRow.Clash} {feeds : List Jpfeed} {now : ℤ}
  {ctx : PsContext} {job owner : Bytes} {tag : SoapTag}

variable (env) in
/-- What is returned is deferred by a request. -/
def Defers (feeds : List Jpfeed) (now : ℤ) (r : ServerRequest) (ds : Option (List Deferred)) :
    Prop :=
  ∀ d ∈ ds.getD [], DeferredBy env feeds now r (d.task feeds)

theorem serveRegisterJob_defers :
    Stateful.Yields (SameFeeds box table) (Defers env feeds now (.registerJob ctx job owner))
      (serveRegisterJob env ctx now job owner) := by
  refine (Stateful.Keeps.liftM _).yields.bind fun trusted _ => ?_
  split_ifs
  · refine (keeps_jppsbeRegisterJob fun _ _ h => h).yields.bind fun ret _ => ?_
    cases ret with
    | some e => exact .pure nofun
    | none =>
      refine (Stateful.Yields.liftM fun attrs => id).bind fun attrs hattrs => .pure ?_
      exact List.forall_mem_singleton.2 (.registerJob hattrs)
  · exact .pure nofun

theorem serveRecordTag_defers :
    Stateful.Yields (SameFeeds box table) (Defers env feeds now (.recordTag ctx job tag))
      (serveRecordTag env ctx now job tag) := by
  refine Stateful.Yields.get.bind fun s _ => (Stateful.Keeps.liftM _).yields.bind fun owner _ => ?_
  cases owner with
  | none => exact .pure nofun
  | some owner =>
    refine (Stateful.Yields.liftM fun attr => id).bind fun attr hattr =>
      (keeps_jppsbeAppendTags fun _ _ h => h).yields.bind fun ret _ => ?_
    cases ret with
    | some e => exact .pure nofun
    | none =>
      refine (Stateful.Yields.liftM fun attrs => id).bind fun attrs hattrs => .pure ?_
      exact List.forall_mem_singleton.2 (.recordTag hattr hattrs)

theorem keeps_recordJobs {jobs : List (Bytes × List SoapTag)} :
    Stateful.Keeps (SameFeeds box table) (recordJobs env ctx now jobs) := by
  induction jobs with
  | nil => exact .pure _
  | cons j jobs ih =>
    refine Stateful.Keeps.bind (fun _ h => h) fun s => (Stateful.Keeps.liftM _).bind fun owner => ?_
    cases owner with
    | none => exact .pure _
    | some owner =>
      rw [Stateful.mapM_liftM]
      refine (Stateful.Keeps.liftM _).bind fun attrs =>
        (keeps_jppsbeAppendTags fun _ _ h => h).bind fun ret => ?_
      cases ret with
      | some e => exact .pure _
      | none =>
        refine ih.bind fun recorded => ?_
        cases recorded <;> exact .pure _

theorem serveRecordMultiTags_defers {jobs : List (Bytes × List SoapTag)} :
    Stateful.Yields (SameFeeds box table) (Defers env feeds now (.recordMultiTags ctx jobs))
      (serveRecordMultiTags env ctx now jobs) := by
  refine keeps_recordJobs.yields.bind fun recorded _ => ?_
  cases recorded with
  | none => exact .pure nofun
  | some recorded =>
    exact (Stateful.Keeps.liftM _).yields.bind fun kept _ =>
      .pure (List.forall_mem_singleton.2 .recordMultiTags)

theorem serveFeedIndex_defers {buf : Bytes} {r : FeedRequest} {ds : Option (List Deferred)}
    (h : serveFeedIndex now (env.md5 buf) r = .ok ds) :
    Defers env feeds now (.feedIndex buf r) ds := by
  unfold serveFeedIndex at h
  split at h
  · obtain rfl := Except.ok.inj h
    exact nofun
  · rename_i destination hdest
    obtain ⟨qry, hqry, h⟩ := Exec.bind_eq_ok.1 h
    obtain ⟨past, hpast, h⟩ := Exec.bind_eq_ok.1 h
    obtain ⟨future, hfuture, h⟩ := Exec.bind_eq_ok.1 h
    have hcont : past.continuous = false := by
      obtain ⟨_, -, hpast⟩ := Exec.bind_eq_ok.1 hpast
      exact Except.ok.inj hpast ▸ rfl
    have hpast' := @DeferredBy.history env feeds now buf destination r qry past hdest hqry hpast
    have hfuture' := @DeferredBy.continuous env feeds now buf destination r qry future hdest hqry
      hfuture
    cases hhist : r.history <;> cases hc : r.continuous <;> rw [hhist, hc] at h <;>
      rw [hc] at hpast' <;> obtain rfl := Except.ok.inj h
    · exact nofun
    · exact List.forall_mem_singleton.2 hfuture'
    · rw [← hcont] at hpast'
      exact List.forall_mem_singleton.2 hpast'
    · exact List.forall_mem_cons.2 ⟨hpast', List.forall_mem_singleton.2 hfuture'⟩

/-- A request changes neither what was sent nor the marks nor the feeds, and defers what it
    is about. -/
theorem ServerRequest.serve_yields (r : ServerRequest) :
    Stateful.Yields (SameFeeds box table)
      (fun new => ∀ tasks, new = some tasks → ∀ t ∈ tasks, DeferredBy env feeds now r t)
      (r.serve env feeds now) := by
  have hmap : ∀ ds : Option (List Deferred), Defers env feeds now r ds →
      ∀ tasks, ds.map (·.map (Deferred.task feeds)) = some tasks →
        ∀ t ∈ tasks, DeferredBy env feeds now r t := by
    rintro ds hds _ hd t ht
    obtain ⟨ds, rfl, rfl⟩ := Option.map_eq_some_iff.1 hd
    obtain ⟨d, hd, rfl⟩ := List.mem_map.1 ht
    exact hds d hd
  cases r with
  | registerJob ctx job owner => exact serveRegisterJob_defers.bind fun ds hds => .pure (hmap ds hds)
  | recordTag ctx job tag => exact serveRecordTag_defers.bind fun ds hds => .pure (hmap ds hds)
  | recordMultiTags ctx jobs =>
    exact serveRecordMultiTags_defers.bind fun ds hds => .pure (hmap ds hds)
  | commitUpload job cls name =>
    refine .pure fun tasks htasks => ?_
    obtain rfl := Option.some.inj htasks
    exact List.forall_mem_singleton.2 .commitUpload
  | feedIndex buf r =>
    exact (Stateful.Yields.liftM fun ds => serveFeedIndex_defers).bind fun ds hds =>
      .pure (hmap ds hds)

variable {r : ServerRequest} {s : PsState}

/-- What a request leaves alone. -/
theorem ServerRequest.serve_left : (Stateful.left (r.serve env feeds now s)).toOutbox = s.toOutbox ∧
    (Stateful.left (r.serve env feeds now s)).feeds = s.feeds :=
  r.serve_yields.1 s ⟨rfl, rfl⟩

/-- What it has deferred when it is served. -/
theorem ServerRequest.serve_eq_ok {new : List Task} {ps : PsState}
    (h : r.serve env feeds now s = .ok (some new) ps) :
    (ps.toOutbox = s.toOutbox ∧ ps.feeds = s.feeds) ∧ ∀ t ∈ new, DeferredBy env feeds now r t := by
  have hleft := @serve_left env feeds now r s
  rw [h] at hleft
  exact ⟨hleft, r.serve_yields.2 s ⟨rfl, rfl⟩ _ _ h new rfl⟩

end Defers

/-! ## Parts that choose -/

/-- The parts of an action that look what there is to be done, and change nothing. -/
def Task.Chooses : Task → Prop
  | .runFeed _ | .matchAttr _ _ _ | .matchAttrMulti _ _ | .matchFile _ _ _ _
  | .matchVals _ _ _ => True
  | _ => False

/-- What such a part leaves to be done. -/
inductive Task.Choice : Task → Task → Prop
  | rows {feed : Jpfeed} {f : HistoryFeed} {rows : List (Bytes × List Attrval)} :
      splitFeed feed = .ok f → Choice (.runFeed feed) (.feedRows f .empty rows)
  | failed {feed : Jpfeed} : Choice (.runFeed feed) .freed
  | attr {f : Jpfeed} {feeds : List Jpfeed} {job : Bytes} {attrs : List Attrval} :
      asksFor f.attrs attrs = true →
      Choice (.matchAttr (f :: feeds) job attrs) (.matchFeed f job false (.matching attrs))
  | attrs {f : Jpfeed} {feeds : List Jpfeed} {job : Bytes} {attrs : List Attrval} :
      Choice (.matchAttr (f :: feeds) job attrs) (.matchAttr feeds job attrs)
  | jobs {f : Jpfeed} {feeds : List Jpfeed} {jobs : List (Bytes × List Attrval)} :
      Choice (.matchAttrMulti (f :: feeds) jobs) (.matchJobs f jobs [])
  | multi {f : Jpfeed} {feeds : List Jpfeed} {jobs : List (Bytes × List Attrval)} :
      Choice (.matchAttrMulti (f :: feeds) jobs) (.matchAttrMulti feeds jobs)
  | file {feeds : List Jpfeed} {job cls : Bytes} {name : Option Bytes} {vals : List Attrval} :
      Choice (.matchFile feeds job cls name) (.matchVals feeds job vals)
  | again {feeds : List Jpfeed} {job cls : Bytes} {name : Option Bytes} :
      Choice (.matchFile feeds job cls name) (.matchFile feeds job cls name)
  | val {f : Jpfeed} {feeds : List Jpfeed} {job : Bytes} {vals : List Attrval} :
      Choice (.matchVals (f :: feeds) job vals) (.matchFeed f job true (.matching vals))
  | vals {f : Jpfeed} {feeds : List Jpfeed} {job : Bytes} {vals : List Attrval} :
      Choice (.matchVals (f :: feeds) job vals) (.matchVals feeds job vals)

theorem Task.exec_choice {I : PsState → Prop} {T : Task → Prop} {now : ℤ} {task : Task}
    (h : task.Chooses) (hT : ∀ t, task.Choice t → T t) :
    Stateful.Yields I (fun p => ∀ t ∈ p.tasks, T t) (task.exec env plugins now) := by
  suffices hchoice : Stateful.Yields I (fun p => ∀ t ∈ p.tasks, task.Choice t)
      (task.exec env plugins now) from hchoice.mono fun p hp t ht => hT t (hp t ht)
  have hnil : ∀ t ∈ (Progress.goes []).tasks, task.Choice t := nofun
  cases task with
  | runFeed feed =>
    have hfailed : ∀ t ∈ (Progress.fails .freed).tasks, Task.Choice (.runFeed feed) t :=
      List.forall_mem_singleton.2 .failed
    refine Stateful.Yields.get.bind fun s _ => ?_
    split
    · exact .pure hfailed
    · exact .throw _
    · rename_i f hsplit
      split
      · exact .pure hnil
      · exact .pure hfailed
      · exact .throw _
      · exact .pure (List.forall_mem_singleton.2 (.rows hsplit))
  | matchAttr feeds job attrs =>
    cases feeds with
    | nil => exact .pure hnil
    | cons f feeds =>
      refine (Stateful.Yields.liftM fun names h => (elements_eq_ok.1 h).2).bind fun names hn => ?_
      subst hn
      split_ifs with hasks
      · exact .pure (List.forall_mem_cons.2 ⟨.attr hasks, List.forall_mem_singleton.2 .attrs⟩)
      · exact .pure (List.forall_mem_singleton.2 .attrs)
  | matchAttrMulti feeds jobs =>
    cases feeds with
    | nil => exact .pure hnil
    | cons f feeds =>
      refine (Stateful.Keeps.liftM _).yields.bind fun names _ => ?_
      split_ifs
      · exact .pure (List.forall_mem_cons.2 ⟨.jobs, List.forall_mem_singleton.2 .multi⟩)
      · exact .pure (List.forall_mem_singleton.2 .multi)
  | matchFile feeds job cls name =>
    refine Stateful.Yields.get.bind fun s _ => ?_
    split_ifs
    · exact .pure hnil
    · split
      · exact .pure (List.forall_mem_singleton.2 .file)
      · exact .pure (List.forall_mem_singleton.2 .again)
      · exact .throw _
  | matchVals feeds job vals =>
    cases feeds with
    | nil => exact .pure hnil
    | cons f feeds =>
      exact .pure (List.forall_mem_cons.2 ⟨.val, List.forall_mem_singleton.2 .vals⟩)
  | feedRows | registerFeed | matchFeed | matchJobs | markJobs | freed => exact h.elim

/-! ## What holds of all slaves -/

/-- What all slaves have: feeds that meet `F`, and tasks that meet `T`. -/
def ServerState.All (s : ServerState) (F : Jpfeed → Prop) (T : Task → Prop) : Prop :=
  ∀ i slave, s.slaves i = some slave → (∀ f ∈ slave.feeds, F f) ∧ ∀ t ∈ slave.tasks, T t

variable {F F' : Jpfeed → Prop} {T T' : Task → Prop} {i : ℕ} {ps : PsState} {slave : Option Slave}

theorem ServerState.All.mono (h : s.All F T) (hF : ∀ f, F f → F' f) (hT : ∀ t, T t → T' t) :
    s.All F' T' := fun i slave hs =>
  ⟨fun f hf => hF f ((h i slave hs).1 f hf), fun t ht => hT t ((h i slave hs).2 t ht)⟩

/-- All slaves still have it when the one that has changed does. -/
theorem ServerState.All.set (h : s.All F T)
    (hslave : ∀ sl, slave = some sl → (∀ f ∈ sl.feeds, F f) ∧ ∀ t ∈ sl.tasks, T t) :
    (s.set ps i slave).All F T := by
  intro j sl hsl
  by_cases hj : j = i
  · subst hj
    exact hslave sl (by simpa [ServerState.set] using hsl)
  · exact h j sl (by simpa [ServerState.set, Function.update_of_ne hj] using hsl)

end Server

end JobProvenance
