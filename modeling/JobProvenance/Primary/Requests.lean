import JobProvenance.Feed.Condition
import JobProvenance.Primary.History
import JobProvenance.Primary.Matching

/-!
# Requests

What a slave of a primary storage does for a request: it changes what the storage
keeps, answers, and then takes actions that were deferred until the answer, among
them those that feed index servers.

* `serveRegisterJob`, `serveRecordTag`, `serveRecordMultiTags`, `serveFeedIndex`: the
  requests, which return the deferred actions when they are answered without a fault;
* `Deferred.run`: a deferred action, with the feeds the slave has loaded, and
  `runDeferred`: all of them, one after the other.
-/

namespace JobProvenance

/-- Seconds until a feed expires. -/
def FEED_TTL : ℤ := 360

/-- The client of a request, and what the server is told of clients. -/
structure PsContext where
  peer : Option Bytes
  noauth : Bool
  trustedPeers : List Bytes

/-- A tag of a request. -/
structure SoapTag where
  name : Bytes
  value : Option StringOrBlob

/-- A deferred action. -/
inductive Deferred
  | runFeed (feed : Jpfeed)
  | registerFeed (feed : Jpfeed)
  | matchAttr (job : Bytes) (attrs : List Attrval)
  | matchAttrMulti (jobs : List (Bytes × List Attrval))
  | matchFile (job : Bytes) (vals : List Attrval)

/-- Whether the client is one of those that may register jobs. -/
def authzTrusted (ctx : PsContext) : Exec Bool :=
  ctx.trustedPeers.anyM fun trusted => do
    let peer ← Exec.deref ctx.peer
    return trusted = peer

/-- Whether the client may tag the jobs of an owner. -/
def authzOwner (ctx : PsContext) (owner : Bytes) : Exec Bool :=
  if ctx.noauth then .ok true
  else do
    let peer ← Exec.deref ctx.peer
    return owner = peer

/-- The value of a tag. -/
def tagAttrval (tag : SoapTag) (now : ℤ) : Exec Attrval := do
  let (value, binary, size) ← match ← Exec.deref tag.value with
    | .string s => Except.ok (s, false, 0)
    | .blob bytes => Except.ok (bytes, true, bytes.length)
    | .malformed => Except.error Stop.fault
  return { name := tag.name, value, binary, size, origin := .user, originDetail := none,
           timestamp := now }

section Serve

variable (env : Env)

/-! ## The backend -/

/-- Registers a job. -/
def jppsbeRegisterJob (now : ℤ) (job owner : Bytes) : Serving Ret := fun s =>
  match jobidUniquePathname job true with
  | .error (.errno e) => .ok (some e) s
  | .error e => .error e s
  | .ok ju =>
    let tables := storeUser s.tables (env.md5 owner) owner
    match tables.jobs.insert ⟨ju, job, env.md5 owner, now⟩ with
    | some jobs => .ok none { s with tables := { tables with jobs } }
    | none => .ok (some .EEXIST) { s with tables }

/-- Appends tags. -/
def jppsbeAppendTags (job : Bytes) (attrs : List Attrval) : Serving Ret := fun s =>
  match appendTags env.config s.tables.jobs.rows s.disk job attrs with
  | .ok (ret, disk) => .ok ret { s with disk }
  | .error e => .error e s

/-- Changes when a feed expires. -/
def FeedsRow.refresh (id : Bytes) (expires : ℤ) (r : FeedsRow) : FeedsRow :=
  if r.feedid = id then { r with expires } else r

theorem FeedsRow.feedid_refresh (id : Bytes) (expires : ℤ) (r : FeedsRow) :
    (r.refresh id expires).feedid = r.feedid := by
  unfold refresh
  split_ifs <;> rfl

theorem FeedsRow.clash_refresh (id : Bytes) (expires : ℤ) (a b : FeedsRow)
    (h : (a.refresh id expires).Clash (b.refresh id expires)) : a.Clash b := by
  simpa only [Clash, feedid_refresh] using h

/-- Changes when a feed of the table expires. -/
def refreshFeed (feeds : Table FeedsRow FeedsRow.Clash) (id : Bytes) (expires : ℤ) :
    Table FeedsRow FeedsRow.Clash :=
  feeds.update (FeedsRow.refresh id expires) (FeedsRow.clash_refresh id expires)

/-! ## Requests -/

/-- Registers a job of an owner: the owner is what arrives of it. -/
def serveRegisterJob (ctx : PsContext) (now : ℤ) (job owner : Bytes) :
    Serving (Option (List Deferred)) := do
  if ← authzTrusted ctx then
    match ← jppsbeRegisterJob env now job owner with
    | some _ => return none
    | none =>
      let attrs ← matchAttr [systemValue GLITE_JP_ATTR_OWNER owner now]
      return some [.matchAttr job attrs]
  else return none

/-- The owner of a job that the client may tag; `none` when it may not, or there is none. -/
def taggedOwner (ctx : PsContext) (s : PsState) (job : Bytes) : Exec (Option Bytes) := do
  match ← ownerOf s job with
  | none => return none
  | some owner =>
    if ← authzOwner ctx owner then return some owner else return none

/-- Tags a job. -/
def serveRecordTag (ctx : PsContext) (now : ℤ) (job : Bytes) (tag : SoapTag) :
    Serving (Option (List Deferred)) := do
  let s ← get
  match ← taggedOwner ctx s job with
  | none => return none
  | some _ =>
    let attr ← tagAttrval tag now
    match ← jppsbeAppendTags env job [attr] with
    | some _ => return none
    | none =>
      let attrs ← matchAttr [attr]
      return some [.matchAttr job attrs]

/-- Tags jobs one after the other, up to the first that fails. -/
def recordJobs (ctx : PsContext) (now : ℤ) :
    List (Bytes × List SoapTag) → Serving (Option (List (Bytes × List Attrval)))
  | [] => return some []
  | (job, tags) :: jobs => do
    let s ← get
    match ← taggedOwner ctx s job with
    | none => return none
    | some _ =>
      let attrs ← tags.mapM (tagAttrval · now)
      match ← jppsbeAppendTags env job attrs with
      | some _ => return none
      | none =>
        match ← recordJobs ctx now jobs with
        | none => return none
        | some recorded => return some ((job, attrs) :: recorded)

/-- Tags several jobs. -/
def serveRecordMultiTags (ctx : PsContext) (now : ℤ) (jobs : List (Bytes × List SoapTag)) :
    Serving (Option (List Deferred)) := do
  match ← recordJobs env ctx now jobs with
  | none => return none
  | some recorded =>
    let kept ← matchAttrMulti recorded
    return some [.matchAttrMulti kept]

/-- Promises a feed, whose identifier is a new one: the jobs of the past are fed, and then
    it is registered to be continued. -/
def serveFeedIndex (now : ℤ) (id : Bytes) (r : FeedRequest) : Exec (Option (List Deferred)) :=
  match r.destination with
  | none => .ok none
  | some destination => do
    let qry ← r.conditions.mapM s2jpQuery
    let past ← makeJpfeed destination r.attributes qry id 0
    let future ← makeJpfeed destination r.attributes qry id (now + FEED_TTL)
    match r.history, r.continuous with
    | true, true => return some [.runFeed { past with continuous := true }, .registerFeed future]
    | true, false => return some [.runFeed past]
    | false, true => return some [.registerFeed future]
    | false, false => return none

/-! ## Deferred actions -/

/-- Registers a feed, from now on to be loaded when a slave starts; an error is printed. -/
def registerFeedDeferred (now : ℤ) (feed : Jpfeed) : Serving Unit := fun s =>
  match storeFeed env.escape s.feeds feed with
  | .ok feeds => .ok () { s with feeds := refreshFeed feeds feed.id (now + FEED_TTL) }
  | .error (.errno _) => .ok () s
  | .error e => .error e s

/-- Feeds a job of which a file arrived, whatever the feeds ask for. -/
def matchFileDeferred (feeds : List Jpfeed) (job : Bytes) (vals : List Attrval) : Serving Unit :=
  feeds.forM fun f => matchFeed env f job vals

/-- Takes a deferred action. -/
def Deferred.run (feeds : List Jpfeed) (now : ℤ) : Deferred → Serving Ret
  | .runFeed feed => do
    let s ← get
    runFeedDeferred env.answers (beQuery s.tables.jobs.rows s.tables.users.rows) (getAttrs env s)
      feed
  | .registerFeed feed => do
    registerFeedDeferred env now feed
    return none
  | .matchAttr job attrs => do
    matchAttrDeferred env feeds job attrs
    return none
  | .matchAttrMulti jobs => do
    matchAttrMultiDeferred env feeds jobs
    return none
  | .matchFile job vals => do
    matchFileDeferred env feeds job vals
    return none

/-- Takes the deferred actions, up to the first that fails: those that are left. -/
def runDeferred (feeds : List Jpfeed) (now : ℤ) : List Deferred → Serving (List Deferred)
  | [] => return []
  | d :: ds => do
    match ← d.run env feeds now with
    | none => runDeferred feeds now ds
    | some _ => return d :: ds

/-! ## What a request does -/

variable {env} {ctx : PsContext} {now : ℤ} {job : Bytes} {tag : SoapTag} {s s' : PsState}
  {ds : List Deferred}

/-- Registering a job changes nothing but tables. -/
theorem keeps_jppsbeRegisterJob {I : PsState → Prop} {owner : Bytes}
    (hI : ∀ s tables, I s → I { s with tables }) :
    Stateful.Keeps I (jppsbeRegisterJob env now job owner) := by
  intro s h
  unfold jppsbeRegisterJob
  split
  · exact h
  · exact h
  · dsimp only
    split <;> exact hI s _ h

/-- A job that is registered was not known. -/
theorem jppsbeRegisterJob_eq_ok {owner : Bytes}
    (h : jppsbeRegisterJob env now job owner s = .ok none s') :
    (∀ row ∈ s.tables.jobs.rows, row.dgJobid ≠ job) ∧ ∃ tables, s' = { s with tables } := by
  unfold jppsbeRegisterJob at h
  split at h
  · cases h
  · cases h
  · dsimp only at h
    split at h
    · rename_i jobs hinsert
      obtain ⟨-, rfl⟩ := EStateM.Result.ok.inj h
      exact ⟨fun row hrow hjob => (Table.insert_eq_some.1 hinsert).1 row hrow (.inr hjob), _, rfl⟩
    · cases h

/-- Appending tags changes nothing but files. -/
theorem keeps_jppsbeAppendTags {I : PsState → Prop} {attrs : List Attrval}
    (hI : ∀ s disk, I s → I { s with disk }) :
    Stateful.Keeps I (jppsbeAppendTags env job attrs) := by
  intro s h
  unfold jppsbeAppendTags
  split
  · exact hI s _ h
  · exact h

theorem jppsbeAppendTags_eq_ok {attrs : List Attrval} {ret : Ret} :
    jppsbeAppendTags env job attrs s = .ok ret s' ↔ ∃ disk,
      appendTags env.config s.tables.jobs.rows s.disk job attrs = .ok (ret, disk) ∧
        s' = { s with disk } := by
  unfold jppsbeAppendTags
  split
  · rename_i r disk happ
    simp only [EStateM.Result.ok.injEq, happ, Except.ok.injEq, Prod.mk.injEq]
    constructor
    · rintro ⟨rfl, rfl⟩
      exact ⟨disk, ⟨rfl, rfl⟩, rfl⟩
    · rintro ⟨_, ⟨rfl, rfl⟩, rfl⟩
      exact ⟨rfl, rfl⟩
  · rename_i e happ
    rw [happ]
    exact iff_of_false nofun fun ⟨_, h, _⟩ => nomatch h

/-- Jobs are recorded when the first one is, and then the others. -/
theorem recordJobs_cons_eq_some {tags : List SoapTag} {jobs : List (Bytes × List SoapTag)}
    {recorded : List (Bytes × List Attrval)} :
    recordJobs env ctx now ((job, tags) :: jobs) s = .ok (some recorded) s' ↔
      ∃ owner attrs disk rest, taggedOwner ctx s job = .ok (some owner) ∧
        tags.mapM (tagAttrval · now) = .ok attrs ∧
        appendTags env.config s.tables.jobs.rows s.disk job attrs = .ok (none, disk) ∧
        recordJobs env ctx now jobs { s with disk } = .ok (some rest) s' ∧
        recorded = (job, attrs) :: rest := by
  constructor
  · intro h
    obtain ⟨u, u', hu, h⟩ := Stateful.bind_eq_ok.1 h
    obtain ⟨rfl, rfl⟩ := EStateM.Result.ok.inj hu
    obtain ⟨owner?, u', ho, h⟩ := Stateful.bind_eq_ok.1 h
    obtain ⟨howner, rfl⟩ := Stateful.liftM_eq_ok.1 ho
    cases owner? with
    | none => cases (Stateful.pure_eq_ok.1 h).1
    | some owner =>
      dsimp only at h
      rw [Stateful.mapM_liftM] at h
      obtain ⟨attrs, u', ha, h⟩ := Stateful.bind_eq_ok.1 h
      obtain ⟨hattrs, rfl⟩ := Stateful.liftM_eq_ok.1 ha
      obtain ⟨ret, u', happ, h⟩ := Stateful.bind_eq_ok.1 h
      cases ret with
      | some e => cases (Stateful.pure_eq_ok.1 h).1
      | none =>
        obtain ⟨disk, hdisk, rfl⟩ := jppsbeAppendTags_eq_ok.1 happ
        obtain ⟨rest, u', hrest, h⟩ := Stateful.bind_eq_ok.1 h
        cases rest with
        | none => cases (Stateful.pure_eq_ok.1 h).1
        | some rest =>
          obtain ⟨hr, rfl⟩ := Stateful.pure_eq_ok.1 h
          exact ⟨owner, attrs, disk, rest, howner, hattrs, hdisk, hrest, (Option.some.inj hr).symm⟩
  · rintro ⟨owner, attrs, disk, rest, howner, hattrs, happ, hrest, rfl⟩
    rw [recordJobs, Stateful.get_bind, howner, Stateful.liftM_bind]
    dsimp only
    rw [Stateful.mapM_liftM, hattrs, Stateful.liftM_bind]
    exact Stateful.bind_eq_ok.2 ⟨none, _, jppsbeAppendTags_eq_ok.2 ⟨disk, happ, rfl⟩,
      Stateful.bind_eq_ok.2 ⟨some rest, _, hrest, rfl⟩⟩

/-- A tag is recorded: it is appended, and what is kept of it is left to be matched. -/
theorem serveRecordTag_eq_some (h : serveRecordTag env ctx now job tag s = .ok (some ds) s') :
    ∃ owner attr disk attrs, taggedOwner ctx s job = .ok (some owner) ∧
      tagAttrval tag now = .ok attr ∧
      appendTags env.config s.tables.jobs.rows s.disk job [attr] = .ok (none, disk) ∧
      matchAttr [attr] = .ok attrs ∧ ds = [.matchAttr job attrs] ∧ s' = { s with disk } := by
  obtain ⟨t, t', ht, h⟩ := Stateful.bind_eq_ok.1 h
  obtain ⟨rfl, rfl⟩ := EStateM.Result.ok.inj ht
  obtain ⟨o, t', ht, h⟩ := Stateful.bind_eq_ok.1 h
  obtain ⟨ho, rfl⟩ := Stateful.liftM_eq_ok.1 ht
  cases o with
  | none =>
    obtain ⟨hd, -⟩ := Stateful.pure_eq_ok.1 h
    cases hd
  | some owner =>
    obtain ⟨attr, t', ht, h⟩ := Stateful.bind_eq_ok.1 h
    obtain ⟨hattr, rfl⟩ := Stateful.liftM_eq_ok.1 ht
    obtain ⟨ret, t', ht, h⟩ := Stateful.bind_eq_ok.1 h
    obtain ⟨disk, happ, rfl⟩ := jppsbeAppendTags_eq_ok.1 ht
    cases ret with
    | some e =>
      obtain ⟨hd, -⟩ := Stateful.pure_eq_ok.1 h
      cases hd
    | none =>
      obtain ⟨attrs, t', ht, h⟩ := Stateful.bind_eq_ok.1 h
      obtain ⟨hattrs, rfl⟩ := Stateful.liftM_eq_ok.1 ht
      obtain ⟨hd, rfl⟩ := Stateful.pure_eq_ok.1 h
      exact ⟨owner, attr, disk, attrs, ho, hattr, happ, hattrs, (Option.some.inj hd).symm, rfl⟩

/-! ## What leaves the tables alone -/

section KeepsTables

variable (T : Tables)

theorem keeps_get {I : PsState → Prop} : Stateful.Keeps I (get : Serving PsState) := fun _ h => h

/-- Messages leave the tables alone. -/
theorem keeps_tables_sending {α : Type} (x : Sending α) :
    Stateful.Keeps (·.tables = T) (liftM x : Serving α) := by
  intro s h
  change (Stateful.left (sending x s)).tables = T
  unfold sending
  cases x s.toOutbox <;> exact h

theorem matchFeed_keeps_tables (feed : Jpfeed) (attrs : List Attrval) :
    Stateful.Keeps (·.tables = T) (matchFeed env feed job attrs) := by
  refine keeps_get.bind fun s => (Stateful.Keeps.liftM _).bind fun matching => ?_
  split_ifs
  · refine (Stateful.Keeps.liftM _).bind fun fed => ?_
    split_ifs
    · refine (Stateful.Keeps.liftM _).bind fun a => (keeps_tables_sending T _).bind fun ret => ?_
      split_ifs
      · exact (keeps_tables_sending T _).bind fun _ => .pure _
      · exact .pure _
    · exact (Stateful.Keeps.liftM _).bind fun owner =>
        (keeps_tables_sending T _).bind fun _ => .pure _
  · exact .pure _

theorem matchAttrDeferred_keeps_tables (feeds : List Jpfeed) (attrs : List Attrval) :
    Stateful.Keeps (·.tables = T) (matchAttrDeferred env feeds job attrs) := by
  refine .forM (fun f => (Stateful.Keeps.liftM _).bind fun names => ?_) feeds
  split_ifs
  · exact matchFeed_keeps_tables T f attrs
  · exact .pure _

theorem matchFeedMulti_keeps_tables (feed : Jpfeed) (jobs : List (Bytes × List Attrval)) :
    Stateful.Keeps (·.tables = T) (matchFeedMulti env feed jobs) := by
  refine keeps_get.bind fun s => (Stateful.Keeps.liftM _).bind fun matched =>
    (keeps_tables_sending T _).bind fun ret => ?_
  split_ifs
  · refine .forM (fun m => (Stateful.Keeps.liftM _).bind fun fed => ?_) matched
    split_ifs
    · exact (keeps_tables_sending T _).bind fun _ => .pure _
    · exact .pure _
  · exact .pure _

theorem registerFeedDeferred_keeps_tables (feed : Jpfeed) :
    Stateful.Keeps (·.tables = T) (registerFeedDeferred env now feed) := by
  intro s h
  unfold registerFeedDeferred
  split <;> exact h

/-- The deferred actions feed, and register feeds, but leave the tables alone. -/
theorem Deferred.run_keeps_tables (feeds : List Jpfeed) (d : Deferred) :
    Stateful.Keeps (·.tables = T) (d.run env feeds now) := by
  cases d with
  | runFeed feed => exact keeps_get.bind fun s => keeps_tables_sending T _
  | registerFeed feed => exact (registerFeedDeferred_keeps_tables T feed).bind fun _ => .pure _
  | matchAttr job attrs => exact (matchAttrDeferred_keeps_tables T feeds attrs).bind fun _ => .pure _
  | matchAttrMulti jobs =>
    refine Stateful.Keeps.bind (.forM (fun f => (Stateful.Keeps.liftM _).bind fun names => ?_) feeds)
      fun _ => .pure _
    split_ifs
    · exact matchFeedMulti_keeps_tables T f jobs
    · exact .pure _
  | matchFile job vals =>
    exact Stateful.Keeps.bind (.forM (fun f => matchFeed_keeps_tables T f vals) feeds)
      fun _ => .pure _

theorem runDeferred_keeps_tables (feeds : List Jpfeed) (ds : List Deferred) :
    Stateful.Keeps (·.tables = T) (runDeferred env feeds now ds) := by
  induction ds with
  | nil => exact .pure _
  | cons d ds ih =>
    refine (d.run_keeps_tables T feeds).bind fun ret => ?_
    cases ret with
    | none => exact ih
    | some e => exact .pure _

theorem serveRecordTag_keeps_tables :
    Stateful.Keeps (·.tables = T) (serveRecordTag env ctx now job tag) := by
  refine keeps_get.bind fun s => (Stateful.Keeps.liftM _).bind fun owner => ?_
  cases owner with
  | none => exact .pure _
  | some owner =>
    refine (Stateful.Keeps.liftM _).bind fun attr =>
      (keeps_jppsbeAppendTags fun _ _ h => h).bind fun ret => ?_
    cases ret with
    | some e => exact .pure _
    | none => exact (Stateful.Keeps.liftM _).bind fun attrs => .pure _

end KeepsTables

end Serve

end JobProvenance
