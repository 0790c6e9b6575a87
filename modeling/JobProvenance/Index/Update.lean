import JobProvenance.Index.Query
import JobProvenance.Lib.Stateful

/-!
# Updates of the index

How the index server stores what a primary storage feeds it with: `UpdateJobs`
looks up the feed, marks it done at the end of the history, and then stores, for
each record, the job and its owner, unless they are there already, and every
value of a known attribute. Nothing of this is a transaction: each statement
may fail, and the ones before it stay.

`updateJobs` is a computation on the database under an oracle that says which of
the statements fail (`Statement`); it ends normally or with a `Halt`.
The columns hold here what they get; with columns that cut it is
`Widths.updateJobs`.

* `lazyInsert_eq`, `insertAttrVal_eq`: what the two kinds of insertions do;
* `Statement.Follows`: which values are inserted before a statement, and
  `updateRecords_after`: all of those of the earlier records and of the earlier
  values of its record are, when the statement is the one that fails.
-/

namespace JobProvenance

/-! ## Statements -/

/-- A statement of the operation, by its place: the number of the record and of
    the value it belongs to. -/
inductive Statement
  | selectInfoFeed
  | updateStateFeed
  | selectJobid (ijobs : ℕ)
  | insertJob (ijobs : ℕ)
  | selectUser (ijobs : ℕ)
  | insertUser (ijobs : ℕ)
  | insertAttrval (ijobs iattrs : ℕ)
  | insertSingleattrval (ijobs iattrs : ℕ)
  deriving DecidableEq

/-- How the operation ends early. -/
inductive Halt
  /-- It answers with a fault, on account of a statement or of the message. -/
  | fault (p : Option Statement)
  /-- The server stops. -/
  | abort
  deriving DecidableEq

/-- A computation on the database; what it has done stays also when it ends
    early. -/
abbrev Operation (α : Type) := EStateM Halt IndexDb α

/-- Executes a statement: the number of rows it finds or changes, `none` when it
    fails. -/
def execStatement (fails : Statement → Bool) (p : Statement)
    (stmt : IndexDb → Option (ℕ × IndexDb)) : Operation (Option ℕ) := fun db =>
  if fails p then .ok none db
  else
    match stmt db with
    | some (n, db) => .ok (some n) db
    | none => .ok none db

/-- Executes a statement that has to find or change one row. -/
def expectOne (fails : Statement → Bool) (p : Statement)
    (stmt : IndexDb → Option (ℕ × IndexDb)) : Operation Unit := do
  let ret ← execStatement fails p stmt
  if ret ≠ some 1 then throw (.fault (some p))

/-! ## The statements on the database -/

variable (ctx : IndexContext)

/-- Whether an attribute is known. -/
def isKnown (conf : IndexConf) (attr : Bytes) : Bool := findAttr conf.attrs attr

/-- Whether a job has one value of an attribute at most. -/
def isSingleval (conf : IndexConf) (attr : Bytes) : Bool := !findAttr conf.multivalAttrs attr

/-- Whether an attribute may be queried for. -/
def isQueriable (conf : IndexConf) (attr : Bytes) : Bool := findAttr conf.queriableAttrs attr

/-- Whether the jobs have a column for an attribute. -/
def hasColumn (conf : IndexConf) (attr : Bytes) : Bool :=
  isSingleval conf attr && isQueriable conf attr

/-- The columns of attributes of a new job: they are not null and have no
    default, so the database makes them empty. -/
def newColumns : List (Bytes × Bytes) :=
  (ctx.conf.attrs.filter (hasColumn ctx.conf)).map fun attr => (attr2id ctx.md5 attr, [])

/-- Sets a column of a job. -/
def IndexJob.setColumn (j : IndexJob) (c : Bytes × Bytes) : Option IndexJob :=
  if c.1 = ascii "jobid" then some { j with jobid := c.2 }
  else if c.1 = ascii "dg_jobid" then some { j with dgJobid := c.2 }
  else if c.1 = ascii "ownerid" then some { j with ownerid := c.2 }
  else if c.1 = ascii "ps" then some { j with ps := c.2 }
  else if c.1 ∈ j.columns.map (fun col => attrTable col.1) then
    some { j with columns := j.columns.map fun col =>
      if attrTable col.1 = c.1 then (col.1, c.2) else col }
  else none

/-- Executes the text of an update of the jobs: the number of rows it changes. -/
def execUpdate (sql : Bytes) (db : IndexDb) : Option (ℕ × IndexDb) := do
  let u ← Sql.parseUpdate sql
  if u.table ≠ ascii "jobs" then none
  let (n, rows) ← u.apply ctx.coll IndexJob.toRow IndexJob.setColumn db.jobs.rows
  if h : rows.Pairwise fun a b => ¬IndexJob.Clash a b then
    some (n, { db with jobs := ⟨rows, h⟩ })
  else none

/-- The number of jobs under a hash. -/
def IndexDb.countJobs (db : IndexDb) (jobid : Bytes) : ℕ :=
  db.jobs.rows.countP fun j => j.jobid = jobid

/-- The number of users under a hash. -/
def IndexDb.countUsers (db : IndexDb) (userid : Bytes) : ℕ :=
  db.users.rows.countP fun u => u.userid = userid

/-- Inserts a job without values. -/
def insertJobRow (ps jobid owner : Bytes) (db : IndexDb) : Option IndexDb :=
  (db.jobs.insert ⟨ctx.md5 jobid, jobid, ctx.md5 owner, ps, newColumns ctx⟩).map fun jobs =>
    { db with jobs }

/-- Inserts a user. -/
def insertUserRow (owner : Bytes) (db : IndexDb) : Option IndexDb :=
  (db.users.insert ⟨ctx.md5 owner, owner⟩).map fun users => { db with users }

/-- Inserts a value of an attribute. -/
def insertValueRow (id : Bytes) (row : AttrRow) (db : IndexDb) : IndexDb :=
  { db with values := Function.update db.values id (db.values id ++ [row]) }

/-- Sets the state of a feed. -/
def FeedRow.setState (state uniqueid : ℕ) (r : FeedRow) : FeedRow :=
  if r.uniqueid = uniqueid then { r with state } else r

@[simp]
theorem FeedRow.uniqueid_setState (state uniqueid : ℕ) (r : FeedRow) :
    (r.setState state uniqueid).uniqueid = r.uniqueid := by
  unfold FeedRow.setState
  split_ifs <;> rfl

@[simp]
theorem FeedRow.feedid_setState (state uniqueid : ℕ) (r : FeedRow) :
    (r.setState state uniqueid).feedid = r.feedid := by
  unfold FeedRow.setState
  split_ifs <;> rfl

@[simp]
theorem FeedRow.source_setState (state uniqueid : ℕ) (r : FeedRow) :
    (r.setState state uniqueid).source = r.source := by
  unfold FeedRow.setState
  split_ifs <;> rfl

theorem FeedRow.clash_setState (state uniqueid : ℕ) (a b : FeedRow)
    (h : (a.setState state uniqueid).Clash (b.setState state uniqueid)) : a.Clash b := by
  simpa only [FeedRow.Clash, uniqueid_setState, feedid_setState] using h

/-- Sets the state of a feed: the number of rows this changes. -/
def updateStateFeed (state uniqueid : ℕ) (db : IndexDb) : ℕ × IndexDb :=
  (db.feeds.rows.countP fun r => r ≠ r.setState state uniqueid,
    { db with
      feeds := db.feeds.update (FeedRow.setState state uniqueid)
        (FeedRow.clash_setState state uniqueid) })

/-! ## The operation -/

variable (fails : Statement → Bool)

/-- Inserts what is not there; an error of the query is not noticed. -/
def lazyInsert (select insert : Statement) (count : IndexDb → ℕ)
    (stmt : IndexDb → Option IndexDb) : Operation Unit := do
  let found ← execStatement fails select fun db => some (count db, db)
  if found = some 0 then expectOne fails insert fun db => (stmt db).map fun db => (1, db)

/-- Inserts a job and its owner, unless they are there. -/
def lazyInsertJob (ijobs : ℕ) (ps : Bytes) : Option Bytes → Option Bytes → Operation Unit
  | some jobid, some owner => do
    lazyInsert fails (.selectJobid ijobs) (.insertJob ijobs) (·.countJobs (ctx.md5 jobid))
      (insertJobRow ctx ps jobid owner)
    lazyInsert fails (.selectUser ijobs) (.insertUser ijobs) (·.countUsers (ctx.md5 owner))
      (insertUserRow ctx owner)
  | _, _ => throw (.fault none)

/-- The attribute value of a message; `none` is one whose value is the null
    pointer. -/
def soapToAttrVal (attr : AttrValue) : Exec (Option Attrval) :=
  match attr.value with
  | none => .error .fault
  | some .malformed => .ok none
  | some (.string s) => .ok <| some
    { name := attr.name, value := s, binary := false, size := 2 ^ 64 - 1,
      origin := soapToAttrOrig (some attr.origin), originDetail := attr.originDetail,
      timestamp := attr.timestamp }
  | some (.blob bs) => .ok <| some
    { name := attr.name, value := bs, binary := true, size := bs.length,
      origin := soapToAttrOrig (some attr.origin), originDetail := attr.originDetail,
      timestamp := attr.timestamp }

/-- The row of a value, and the text of its column. -/
def attrvalRow (jobid : Bytes) (av : Attrval) : Exec (AttrRow × Bytes) := do
  let value := (attrvalToDbIndex ctx.plugins av GLITE_JPIS_INDEX_LENGTH).getD nullText
  let fullValue ← attrvalToDbFull ctx.plugins ctx.b64 av
  return (⟨ctx.md5 jobid, value, fullValue.getD nullText, av.origin.toNat⟩, value)

/-- The text that sets the column of an attribute; nothing in it is escaped. -/
def insertSingleattrvalSql (id value jobid : Bytes) : Bytes :=
  ascii "UPDATE jobs \n\tSET attr_" ++ (id ++ (ascii "='" ++ (value ++
    (ascii "' \n\tWHERE dg_jobid='" ++ (jobid ++ ascii "'")))))

/-- A step of the C code, which may stop the server. -/
def liftExec {α : Type} (x : Exec α) : Operation α :=
  match x with
  | .ok a => pure a
  | .error _ => throw .abort

/-- Stores a value of an attribute. -/
def insertAttrVal (ijobs iattrs : ℕ) (jobid : Bytes) (av : Attrval) : Operation Unit := do
  let id := attr2id ctx.md5 av.name
  let (row, value) ← liftExec (attrvalRow ctx jobid av)
  expectOne fails (.insertAttrval ijobs iattrs) fun db => some (1, insertValueRow id row db)
  if hasColumn ctx.conf av.name then
    expectOne fails (.insertSingleattrval ijobs iattrs)
      (execUpdate ctx (insertSingleattrvalSql id value jobid))

/-- Stores a value of a message, if its attribute is known. -/
def updateAttr (ijobs iattrs : ℕ) (jobid : Bytes) (attr : AttrValue) : Operation Unit := do
  let av ← liftExec (soapToAttrVal attr)
  if isKnown ctx.conf attr.name then
    let av ← liftExec (Exec.deref av)
    insertAttrVal ctx fails ijobs iattrs jobid av

/-- The values of a record from the number `iattrs` on. -/
def updateAttrs (ijobs : ℕ) (jobid : Bytes) : ℕ → List AttrValue → Operation Unit
  | _, [] => pure ()
  | iattrs, attr :: attrs => do
    updateAttr ctx fails ijobs iattrs jobid attr
    updateAttrs ijobs jobid (iattrs + 1) attrs

/-- Stores a record. -/
def updateJob (ijobs : ℕ) (ps : Bytes) (jobAttrs : JobRecord) : Operation Unit := do
  if jobAttrs.remove = some true then throw .abort
  lazyInsertJob ctx fails ijobs ps jobAttrs.jobid jobAttrs.owner
  updateAttrs ctx fails ijobs (jobAttrs.jobid.getD []) 0 jobAttrs.attributes

/-- The records from the number `ijobs` on. -/
def updateRecords (ps : Bytes) : ℕ → List JobRecord → Operation Unit
  | _, [] => pure ()
  | ijobs, r :: rs => do
    updateJob ctx fails ijobs ps r
    updateRecords ps (ijobs + 1) rs

/-- The flags of a feed's state. -/
def GLITE_JP_IS_STATE_HIST : ℕ := 1
def GLITE_JP_IS_STATE_CONT : ℕ := 2
def GLITE_JP_IS_STATE_DONE : ℕ := 4
def GLITE_JP_IS_STATE_ERROR : ℕ := 8

/-- The feed of an identifier. -/
def IndexDb.feed (db : IndexDb) (feedid : Bytes) : Option FeedRow :=
  db.feeds.rows.find? fun r => r.feedid = some feedid

/-- Looks up a feed; that there are none of its identifier is an error, too. -/
def selectInfoFeed (feedid : Bytes) : Operation FeedRow := fun db =>
  match if fails .selectInfoFeed then none else db.feed feedid with
  | some r => .ok r db
  | none => .error (.fault (some .selectInfoFeed)) db

/-- Marks a feed done, unless it is. -/
def markDone (feed : FeedRow) (feedDone : Bool) : Operation Unit := do
  if feedDone ∧ feed.state &&& GLITE_JP_IS_STATE_DONE = 0 then
    expectOne fails .updateStateFeed fun db =>
      some (updateStateFeed (feed.state ||| GLITE_JP_IS_STATE_DONE) feed.uniqueid db)

/-- The operation. -/
def updateJobs (msg : UpdateJobs) : Operation Unit := do
  let feed ← selectInfoFeed fails msg.feedId
  markDone fails feed msg.feedDone
  updateRecords ctx fails feed.source 0 msg.jobAttributes

/-! ## What the parts do -/

section Parts

variable {ctx fails} {db db' : IndexDb} {p : Statement} {ijobs iattrs : ℕ} {ps jobid : Bytes}
  {attr : AttrValue} {attrs : List AttrValue} {r : JobRecord} {rs : List JobRecord}

open Stateful

theorem execStatement_eq (stmt : IndexDb → Option (ℕ × IndexDb)) :
    execStatement fails p stmt db = match if fails p then none else stmt db with
      | some (n, db) => .ok (some n) db
      | none => .ok none db := by
  unfold execStatement
  split_ifs <;> rfl

/-- A statement that has to change one row stops the operation, when it does
    not; what else it has changed stays. -/
theorem expectOne_eq (stmt : IndexDb → Option (ℕ × IndexDb)) : expectOne fails p stmt db =
    match if fails p then none else stmt db with
    | some (n, db) => if n = 1 then .ok () db else .error (.fault (some p)) db
    | none => .error (.fault (some p)) db := by
  rw [expectOne, bind_eq, execStatement_eq]
  rcases (if fails p then none else stmt db) with _ | ⟨n, db'⟩
  · rfl
  · by_cases hn : n = 1
    · simp [hn]
    · simp [hn]

theorem expectOne_eq_ok {stmt : IndexDb → Option (ℕ × IndexDb)} :
    expectOne fails p stmt db = .ok () db' ↔ fails p = false ∧ stmt db = some (1, db') := by
  rw [expectOne_eq]
  cases fails p with
  | true => simp
  | false =>
    rcases h : stmt db with _ | ⟨n, db₁⟩
    · simp
    · by_cases hn : n = 1
      · simp [hn]
      · simp [hn]

/-- A statement that fails changes nothing. -/
theorem expectOne_eq_error {stmt : IndexDb → Option (ℕ × IndexDb)} {e : Halt} :
    expectOne fails p stmt db = .error e db' ↔ e = .fault (some p) ∧
      ((fails p = true ∨ stmt db = none) ∧ db' = db ∨
        fails p = false ∧ ∃ n ≠ 1, stmt db = some (n, db')) := by
  rw [expectOne_eq]
  cases fails p with
  | true => simp [eq_comm]
  | false =>
    rcases h : stmt db with _ | ⟨n, db₁⟩
    · simp [eq_comm]
    · by_cases hn : n = 1
      · simp [hn]
      · simp [hn, eq_comm]

theorem liftExec_ok {α : Type} (a : α) : (liftExec (.ok a) : Operation α) = pure a := rfl

theorem liftExec_eq_ok {α : Type} {x : Exec α} {a : α} :
    (liftExec x : Operation α) db = .ok a db' ↔ x = .ok a ∧ db' = db := by
  cases x <;> simp [liftExec, eq_comm]

theorem liftExec_eq_error {α : Type} {x : Exec α} {e : Halt}
    (h : (liftExec x : Operation α) db = .error e db') : e = .abort := by
  cases x <;> cases h
  rfl

/-- A lazy insertion inserts when the query finds nothing. -/
theorem lazyInsert_eq (select insert : Statement) (count : IndexDb → ℕ)
    (stmt : IndexDb → Option IndexDb) : lazyInsert fails select insert count stmt db =
      if fails select = false ∧ count db = 0 then
        expectOne fails insert (fun db => (stmt db).map fun db => (1, db)) db
      else .ok () db := by
  rw [lazyInsert, bind_eq, execStatement_eq]
  cases hs : fails select with
  | true => simp
  | false =>
    by_cases hc : count db = 0
    · simp [hc]
    · simp [hc]

end Parts

/-! ## What the records leave alone -/

section Keeps

open Stateful

/-- The texts that set the columns of a job when values are stored. -/
def columnTexts (jobid : Bytes) (attrs : List AttrValue) : Set Bytes := {sql | ∃ attr ∈ attrs,
  ∃ av row value, soapToAttrVal attr = .ok (some av) ∧ isKnown ctx.conf attr.name = true ∧
    attrvalRow ctx jobid av = .ok (row, value) ∧ hasColumn ctx.conf av.name = true ∧
    sql = insertSingleattrvalSql (attr2id ctx.md5 av.name) value jobid}

/-- What the statements that store a record keep, those that set columns when they
    have one of the texts. -/
structure KeptByStatements (texts : Set Bytes) (I : IndexDb → Prop) : Prop where
  job : ∀ ps jobid owner db db', I db → insertJobRow ctx ps jobid owner db = some db' → I db'
  user : ∀ owner db db', I db → insertUserRow ctx owner db = some db' → I db'
  value : ∀ id row db, I db → I (insertValueRow id row db)
  column : ∀ sql ∈ texts, ∀ db n db', I db → execUpdate ctx sql db = some (n, db') → I db'

variable {ctx fails} {I : IndexDb → Prop} {texts : Set Bytes} {ps jobid : Bytes} {p : Statement}
  {ijobs iattrs : ℕ} {attrs : List AttrValue} {r : JobRecord}

theorem keeps_expectOne {stmt : IndexDb → Option (ℕ × IndexDb)}
    (h : ∀ db n db', I db → stmt db = some (n, db') → I db') : Keeps I (expectOne fails p stmt) := by
  intro db hdb
  rw [expectOne_eq]
  split
  · rename_i n db' hstmt
    have hI : I db' := by
      split_ifs at hstmt
      exact h db n db' hdb hstmt
    split_ifs
    · exact hI
    · exact hI
  · exact hdb

theorem keeps_lazyInsert {select insert : Statement} {count : IndexDb → ℕ}
    {stmt : IndexDb → Option IndexDb} (h : ∀ db db', I db → stmt db = some db' → I db') :
    Keeps I (lazyInsert fails select insert count stmt) := by
  intro db hdb
  rw [lazyInsert_eq]
  split_ifs
  · refine keeps_expectOne (fun db n db' hdb hstmt => ?_) db hdb
    obtain ⟨db₁, hstmt, heq⟩ := Option.map_eq_some_iff.1 hstmt
    exact (Prod.mk.inj heq).2 ▸ h db db₁ hdb hstmt
  · exact hdb

theorem keeps_liftExec_bind {α β : Type} {x : Exec α} {f : α → Operation β}
    (h : ∀ a, x = .ok a → Keeps I (f a)) : Keeps I (liftExec x >>= f) := by
  cases x with
  | ok a => exact h a rfl
  | error e => exact .throw _

namespace KeptByStatements

theorem lazyInsertJob (h : KeptByStatements ctx texts I) {o owner : Option Bytes} :
    Keeps I (lazyInsertJob ctx fails ijobs ps o owner) := by
  rcases o with _ | o
  · exact .throw _
  rcases owner with _ | owner
  · exact .throw _
  exact (keeps_lazyInsert (h.job ps o owner)).bind fun _ => keeps_lazyInsert (h.user owner)

theorem updateAttr (h : KeptByStatements ctx texts I) {attr : AttrValue}
    (ht : columnTexts ctx jobid [attr] ⊆ texts) :
    Keeps I (updateAttr ctx fails ijobs iattrs jobid attr) := by
  refine keeps_liftExec_bind fun o ho => ?_
  split_ifs with hk
  · refine keeps_liftExec_bind fun av hav => ?_
    obtain rfl := Exec.deref_eq_ok.1 hav
    refine keeps_liftExec_bind fun (row, value) hrow => ?_
    refine (keeps_expectOne fun db n db' hdb hstmt => ?_).bind fun _ => ?_
    · rw [← (Prod.mk.inj (Option.some.inj hstmt)).2]
      exact h.value _ _ db hdb
    · split_ifs with hc
      · exact keeps_expectOne (h.column _ (ht ⟨attr, List.mem_singleton_self _, av, row, value, ho,
          hk, hrow, hc, rfl⟩))
      · exact .pure _
  · exact .pure _

theorem updateAttrs (h : KeptByStatements ctx texts I) (ht : columnTexts ctx jobid attrs ⊆ texts) :
    Keeps I (updateAttrs ctx fails ijobs jobid iattrs attrs) := by
  induction attrs generalizing iattrs with
  | nil => exact .pure _
  | cons attr attrs ih =>
    refine (h.updateAttr fun sql ⟨a, ha, hsql⟩ => ht ⟨a, ?_, hsql⟩).bind fun _ => ih fun sql
      ⟨a, ha, hsql⟩ => ht ⟨a, List.mem_cons_of_mem attr ha, hsql⟩
    exact List.mem_singleton.1 ha ▸ List.mem_cons_self

theorem updateJob (h : KeptByStatements ctx texts I)
    (ht : columnTexts ctx (r.jobid.getD []) r.attributes ⊆ texts) :
    Keeps I (updateJob ctx fails ijobs ps r) := by
  rw [JobProvenance.updateJob]
  split_ifs
  · exact .throw _
  · exact h.lazyInsertJob.bind fun _ => h.updateAttrs ht

theorem updateRecords (h : KeptByStatements ctx texts I) {rs : List JobRecord}
    (ht : ∀ r ∈ rs, columnTexts ctx (r.jobid.getD []) r.attributes ⊆ texts) :
    Keeps I (updateRecords ctx fails ps ijobs rs) := by
  induction rs generalizing ijobs with
  | nil => exact .pure _
  | cons r rs ih =>
    exact (h.updateJob (ht r List.mem_cons_self)).bind fun _ =>
      ih fun r hr => ht r (List.mem_cons_of_mem _ hr)

end KeptByStatements

/-- The text of an update changes the jobs, if anything. -/
theorem execUpdate_eq_some {sql : Bytes} {db db' : IndexDb} {n : ℕ}
    (h : execUpdate ctx sql db = some (n, db')) : ∃ u rows, Sql.parseUpdate sql = some u ∧
      u.apply ctx.coll IndexJob.toRow IndexJob.setColumn db.jobs.rows = some (n, rows) ∧
      ∃ jobs, jobs.rows = rows ∧ db' = { db with jobs } := by
  simp only [execUpdate, Option.bind_eq_bind, Option.bind_eq_some_iff] at h
  obtain ⟨u, hu, h⟩ := h
  split_ifs at h
  · cases h
  · obtain ⟨⟨m, rows⟩, hrows, h⟩ := Option.bind_eq_some_iff.1 h
    split_ifs at h
    obtain ⟨rfl, rfl⟩ := Prod.mk.inj (Option.some.inj h)
    exact ⟨u, rows, hu, hrows, _, rfl, rfl⟩

/-- Storing a record leaves the feeds alone. -/
theorem keptByStatements_feeds {feeds : Table FeedRow FeedRow.Clash} :
    KeptByStatements ctx Set.univ fun db => db.feeds = feeds where
  job ps jobid owner db db' hdb h := by
    obtain ⟨_, -, rfl⟩ := Option.map_eq_some_iff.1 h
    exact hdb
  user owner db db' hdb h := by
    obtain ⟨_, -, rfl⟩ := Option.map_eq_some_iff.1 h
    exact hdb
  value _ _ _ hdb := hdb
  column sql _ db n db' hdb h := by
    obtain ⟨_, _, -, -, _, -, rfl⟩ := execUpdate_eq_some h
    exact hdb

end Keeps

end JobProvenance
