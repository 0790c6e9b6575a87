import JobProvenance.Index.FeedCaller
import JobProvenance.Index.JobsTable
import JobProvenance.Index.StoredQueries

/-!
# Starting the index server

A server that starts prepares its statements, loads its plugins, with `-D` drops what is in
its database, makes the tables of its configuration unless there are attributes in the
database already (`initDatabase`), and with `-D` or `-F` stores its feeds anew. Each statement
may fail, and some failures it does not look at.

* `StartDb`: the database, with the tables there are and what made them;
* `Connection.call`: a statement, with what becomes of it (`Fate`); when all from one on
  fail, the server was killed there;
* `fresh_of_startServer`: what is in the database when a start with `-D` has succeeded,
  whatever was there before and whatever has failed;
* `startServer_keep_eq_ok`: a start without `-D` succeeds only where it has made nothing.
-/

namespace JobProvenance

open Stateful

/-! ## The database -/

/-- The database of the index server: the rows of its tables, the types that are stored with
    the attributes and the conditions with the feeds, and the number of the next feed. Of the
    tables that a server makes, `tables` has the statement each was made with, by name. -/
structure StartDb where
  rows : IndexDb
  types : Bytes → Option Bytes
  conditions : ℕ → Option Blob
  nextFeed : ℕ
  tables : Bytes → Option Bytes

/-- The rows without those of a table that a server makes. -/
def IndexDb.emptied (db : IndexDb) (name : Bytes) : IndexDb :=
  if name = ascii "jobs" then { db with jobs := .empty }
  else { db with values := Function.update db.values (name.drop 5) [] }

namespace StartDb

variable (d : StartDb)

def dropTable (name : Bytes) : Option StartDb :=
  if (d.tables name).isSome then
    some { d with rows := d.rows.emptied name, tables := Function.update d.tables name none }
  else none

/-- Whether a statement that makes a table has its columns to the end: their bracket is closed
    at the start of a line. -/
def closesColumns (sql : Bytes) : Bool := (strstr (ascii "\n)") sql).isSome

/-- A statement that was cut among the columns is refused; where it was cut among the options
    behind them, it may be. -/
def createTable (name sql : Bytes) : Option StartDb :=
  if (d.tables name).isSome || !closesColumns sql then none
  else some { d with
    rows := d.rows.emptied name
    tables := Function.update d.tables name (some sql) }

/-- What a statement without parameters does. No access lists are ever stored. -/
def execSql (sql : Bytes) : Option StartDb :=
  if (ascii "DROP TABLE ").isPrefixOf sql then d.dropTable (sql.drop 11)
  else if (ascii "CREATE TABLE ").isPrefixOf sql then
    d.createTable ((sql.drop 13).takeWhile (· ≠ ch ' ')) sql
  else if sql = ascii "DELETE FROM attrs" then
    some { d with rows := { d.rows with attrs := [] }, types := fun _ => none }
  else if sql = ascii "DELETE FROM feeds" then
    some { d with rows := { d.rows with feeds := .empty }, conditions := fun _ => none }
  else if sql = ascii "DELETE FROM users" then
    some { d with rows := { d.rows with users := .empty } }
  else if sql = ascii "DELETE FROM acls" then some d
  else none

/-- Inserts an attribute; the identifiers are a key. -/
def insertAttr (row : AttrsRow) (type : Bytes) : Option StartDb :=
  if row.attrid ∈ d.rows.attrs.map AttrsRow.attrid then none
  else some { d with
    rows := { d.rows with attrs := d.rows.attrs ++ [row] }
    types := Function.update d.types row.attrid (some type) }

/-- Inserts a feed; the number is given by the database. -/
def insertFeed (state : ℕ) (source : Bytes) (conds : Blob) : Option (ℕ × StartDb) :=
  (d.rows.feeds.insert ⟨d.nextFeed, none, state, 0, source, none⟩).map fun feeds =>
    (d.nextFeed, { d with
      rows := { d.rows with feeds }
      conditions := Function.update d.conditions d.nextFeed (some conds)
      nextFeed := d.nextFeed + 1 })

/-- Whether there is a table: those that no server makes are always there. -/
def hasTable (name : Bytes) : Bool :=
  name ∈ [ascii "attrs", ascii "feeds", ascii "users", ascii "acls"] || (d.tables name).isSome

end StartDb

/-! ## Statements that fail -/

/-- What becomes of a statement: it is done, it fails, or it is done and what is answered is
    that it has failed. -/
inductive Fate
  | done
  | fails
  | lost
  deriving DecidableEq

/-- The connection to the database: what it holds, the rows of the last query that are yet
    to be fetched, and the number of statements so far. -/
structure Connection where
  db : StartDb
  cursor : List Bytes
  calls : ℕ

variable (plan : ℕ → Fate) {α : Type}

/-- The connection when a statement is counted. -/
def Connection.next (s : Connection) : Connection := { s with calls := s.calls + 1 }

/-- A call, with what becomes of it by the plan. -/
def Connection.call (perform : Connection → Option (α × Connection)) (s : Connection) :
    Option α × Connection :=
  match plan s.calls, perform s.next with
  | .done, some (a, t) => (some a, t)
  | .lost, some (_, t) => (none, t)
  | _, _ => (none, s.next)

/-- What a start fails with, by the part of it. -/
inductive StartFailure
  | connect
  | drop
  | init (e : SetupError)
  | feeds
  | abort
  | fault

/-- A part of a start. -/
abbrev Start (α : Type) := EStateM StartFailure Connection α

/-- A call that may fail. -/
def dbCall (perform : Connection → Option (α × Connection)) : Start (Option α) := fun s =>
  .ok (s.call plan perform).1 (s.call plan perform).2

/-- A call that must not fail. -/
def mustCall (e : StartFailure) (perform : Connection → Option (α × Connection)) : Start α := do
  match ← dbCall plan perform with
  | some a => return a
  | none => throw e

/-- A statement without parameters. -/
def Connection.execSQL (sql : Bytes) (s : Connection) : Option (Unit × Connection) :=
  (s.db.execSql sql).map fun db => ((), { s with db })

/-- The next row of a query; `none` is the end of it. -/
def Connection.fetchRow (s : Connection) : Option (Option Bytes × Connection) :=
  some (s.cursor.head?, { s with cursor := s.cursor.tail })

/-- A statement about a table is prepared. -/
def Connection.prepareStmt (table : Bytes) (s : Connection) : Option (Unit × Connection) :=
  if s.db.hasTable table then some ((), s) else none

/-- What the calls of `initDatabase` do. -/
def SetupCall.perform : SetupCall → Connection → Option (Bytes × Connection)
  | .execSQL sql, s =>
    if sql = ascii "SELECT COUNT(*) FROM attrs" then
      some ([], { s with cursor := [printNat s.db.rows.attrs.length] })
    else (s.execSQL sql).map fun (_, s) => ([], s)
  | .fetchRow, s => s.fetchRow.bind fun (row, s) => row.map (·, s)
  | .prepareStmt _, s => (s.prepareStmt (ascii "attrs")).map fun (_, s) => ([], s)
  | .execPreparedStmt attrid name indexed type, s =>
    (s.db.insertAttr ⟨attrid, name, indexed.toNat⟩ type).map fun db => ([], { s with db })

/-- The connection after some calls of `initDatabase`. -/
def Connection.after (s : Connection) (calls : List SetupCall) : Connection :=
  calls.foldl (fun s c => (s.call plan c.perform).2) s

/-- What the database answers to `initDatabase`. -/
def Connection.answering (s : Connection) : SetupDb := fun calls c =>
  ((s.after plan calls).call plan c.perform).1

/-- `initDatabase` on a connection. -/
def setup (x : SetupDb → Setup α) : Start α := fun s =>
  match x (s.answering plan) [] with
  | .ok a calls => .ok a (s.after plan calls)
  | .error e calls => .error (.init e) (s.after plan calls)

/-! ## A start -/

/-- A feed of the configuration. -/
structure StartFeed where
  psUrl : Bytes
  query : List QueryRec
  history : Bool
  continuous : Bool

/-- The state a feed is stored with. -/
def StartFeed.state (feed : StartFeed) : ℕ :=
  (if feed.history then GLITE_JP_IS_STATE_HIST else 0) |||
    (if feed.continuous then GLITE_JP_IS_STATE_CONT else 0)

/-- What a start takes from the configuration. The list of the files of plugins has no array
    when it is empty; `plugins` has those that could be loaded. -/
structure StartConf extends SchemaConf where
  pluginFiles : List Bytes
  feeds : List StartFeed
  deleteDb : Bool
  forceFeed : Bool

/-- The tables of the statements that every process of the server prepares. -/
def preparedTables : List Bytes :=
  [ascii "feeds", ascii "feeds", ascii "feeds", ascii "feeds", ascii "feeds", ascii "jobs",
    ascii "jobs", ascii "users", ascii "users"]

/-- Connects and prepares the statements. -/
def initDb : Start Unit := do
  mustCall plan .connect fun s => some ((), s)
  preparedTables.forM fun table => mustCall plan .connect (Connection.prepareStmt table)

/-- Drops the tables of the values of some attributes, as far as that can be done. -/
def dropDataTables : List Bytes → Start Unit
  | [] => do
    let _ ← mustCall plan .drop Connection.fetchRow
  | attrid :: attrids => do
    let _ ← mustCall plan .drop Connection.fetchRow
    let _ ← dbCall plan (Connection.execSQL (snprintf 256 (dropDataTable attrid)))
    dropDataTables attrids

/-- Drops the tables that a server has made and deletes the rows of the others. -/
def dropDatabase : Start Unit := do
  mustCall plan .drop (Connection.prepareStmt (ascii "attrs"))
  let attrids ← mustCall plan .drop fun s =>
    let attrids := s.db.rows.attrs.map AttrsRow.attrid
    some (attrids, { s with cursor := attrids })
  dropDataTables plan attrids
  let _ ← dbCall plan (Connection.execSQL (ascii "DROP TABLE jobs"))
  mustCall plan .drop (Connection.execSQL (ascii "DELETE FROM attrs"))
  mustCall plan .drop (Connection.execSQL (ascii "DELETE FROM feeds"))
  mustCall plan .drop (Connection.execSQL (ascii "DELETE FROM users"))
  mustCall plan .drop (Connection.execSQL (ascii "DELETE FROM acls"))

/-- Stores a feed and returns its number. -/
def insertFeed (feed : StartFeed) : Start ℕ :=
  match dbQueriesSerialize feed.query with
  | .ok conds => mustCall plan .feeds fun s =>
    (s.db.insertFeed feed.state feed.psUrl conds).map fun (uniqueid, db) =>
      (uniqueid, { s with db })
  -- an assertion fails
  | .error _ => throw .abort

/-- Stores the feeds of the configuration and returns their numbers. -/
def initDatabaseFeeds (feeds : List StartFeed) : Start (List ℕ) := do
  mustCall plan .feeds (Connection.execSQL (ascii "DELETE FROM feeds"))
  mustCall plan .feeds (Connection.prepareStmt (ascii "feeds"))
  feeds.mapM (insertFeed plan)

/-- Goes through the files of plugins, where there is an array of them; those that cannot be
    loaded are left out. -/
def loadPlugins (conf : StartConf) : Start Unit :=
  if conf.pluginFiles = [] then throw .fault else pure ()

/-- What a server does before it serves. -/
def startServer (conf : StartConf) : Start (List ℕ) := do
  initDb plan
  loadPlugins conf
  if conf.deleteDb then dropDatabase plan
  setup plan (initDatabase conf.toSchemaConf)
  if conf.deleteDb || conf.forceFeed then initDatabaseFeeds plan conf.feeds else return []

/-! ## What a statement does -/

section Calls

variable {plan} {perform : Connection → Option (α × Connection)} {s t : Connection} {a : α}
  {e : StartFailure} {P : StartDb → Prop}

@[simp] theorem next_db : s.next.db = s.db := rfl

@[simp] theorem next_cursor : s.next.cursor = s.cursor := rfl

/-- A call has done what it does, or nothing. -/
theorem call_cases (plan : ℕ → Fate) (perform : Connection → Option (α × Connection))
    (s : Connection) : (s.call plan perform).2 = s.next ∨
      ∃ a, perform s.next = some (a, (s.call plan perform).2) := by
  unfold Connection.call
  split
  · rename_i h
    exact .inr ⟨_, h⟩
  · rename_i h
    exact .inr ⟨_, h⟩
  · exact .inl rfl

/-- A call that is answered has done what it does. -/
theorem call_eq_some (h : (s.call plan perform).1 = some a) :
    perform s.next = some (a, (s.call plan perform).2) := by
  unfold Connection.call at h ⊢
  split at h <;> cases h
  rename_i hplan hperform
  simp only [hperform]

theorem mustCall_eq_ok (h : mustCall plan e perform s = .ok a t) :
    perform s.next = some (a, t) := by
  obtain ⟨answer, u, hcall, h⟩ := bind_eq_ok.1 h
  obtain ⟨rfl, rfl⟩ := EStateM.Result.ok.inj hcall
  cases hanswer : (s.call plan perform).1 with
  | none =>
    rw [hanswer] at h
    cases h
  | some b =>
    rw [hanswer] at h
    obtain ⟨rfl, rfl⟩ := EStateM.Result.ok.inj h
    exact call_eq_some hanswer

theorem call_keeps (h : ∀ s a t, P s.db → perform s = some (a, t) → P t.db) (hs : P s.db) :
    P (s.call plan perform).2.db := by
  rcases call_cases plan perform s with hnext | ⟨b, hnext⟩
  · rw [hnext]
    exact hs
  · exact h s.next _ _ hs hnext

theorem keeps_dbCall (h : ∀ s a t, P s.db → perform s = some (a, t) → P t.db) :
    Keeps (P ·.db) (dbCall plan perform) := fun _ hs => call_keeps h hs

theorem keeps_mustCall (h : ∀ s a t, P s.db → perform s = some (a, t) → P t.db) :
    Keeps (P ·.db) (mustCall plan e perform) :=
  (keeps_dbCall h).bind fun answer => by
    cases answer with
    | some a => exact .pure a
    | none => exact .throw _

theorem execSQL_eq_some {sql : Bytes} {u : Unit} :
    s.execSQL sql = some (u, t) ↔ ∃ db, s.db.execSql sql = some db ∧ { s with db } = t := by
  rw [Connection.execSQL, Option.map_eq_some_iff]
  simp only [Prod.mk.injEq, true_and]

theorem prepareStmt_eq_some {table : Bytes} {u : Unit} :
    s.prepareStmt table = some (u, t) ↔ s.db.hasTable table = true ∧ s = t := by
  rw [Connection.prepareStmt]
  split_ifs with h
  · simp [h]
  · simp [h]

end Calls

/-! ## Statements as texts -/

section Texts

variable {d : StartDb} {conf : SchemaConf} {id : Bytes}

theorem attrTable_inj {id' : Bytes} : attrTable id = attrTable id' ↔ id = id' :=
  List.append_right_inj _

theorem execSql_drop (rest : Bytes) :
    d.execSql (ascii "DROP TABLE " ++ rest) = d.dropTable rest := by
  have h11 : (ascii "DROP TABLE ").length = 11 := by decide
  rw [StartDb.execSql, if_pos (List.isPrefixOf_iff_prefix.2 (List.prefix_append _ _)),
    List.drop_left' h11]

theorem execSql_create {name : Bytes} (hname : ch ' ' ∉ name) (rest : Bytes) :
    d.execSql (ascii "CREATE TABLE " ++ (name ++ ch ' ' :: rest)) =
      d.createTable name (ascii "CREATE TABLE " ++ (name ++ ch ' ' :: rest)) := by
  have hdrop : ¬(ascii "DROP TABLE ").isPrefixOf
      (ascii "CREATE TABLE " ++ (name ++ ch ' ' :: rest)) = true := fun h =>
    absurd ((List.prefix_or_prefix_of_prefix (List.isPrefixOf_iff_prefix.1 h)
      (List.prefix_append _ _))) (by decide)
  have h13 : (ascii "CREATE TABLE ").length = 13 := by decide
  rw [StartDb.execSql, if_neg hdrop, if_pos (List.isPrefixOf_iff_prefix.2 (List.prefix_append _ _)),
    List.drop_left' h13, List.takeWhile_append_of_pos, List.takeWhile_cons_of_neg (by decide),
    List.append_nil]
  intro b hb
  exact decide_eq_true fun h => hname (h ▸ hb)

/-- The statement that drops the table of the values of an attribute is printed whole. -/
theorem dropDataTable_eq (hid : id.length = 32) :
    snprintf SQL_SIZE (dropDataTable id) = ascii "DROP TABLE " ++ attrTable id := by
  have hlen : (dropDataTable id).length < SQL_SIZE := by
    have h : (ascii "DROP TABLE attr_").length = 16 := by decide
    rw [dropDataTable, List.length_append, h, hid]
    decide
  have heq : ascii "DROP TABLE attr_" = ascii "DROP TABLE " ++ ascii "attr_" := by decide
  rw [(snprintf_eq_self_iff (by decide)).2 hlen, dropDataTable, heq, attrTable,
    List.append_assoc]

/-- The table of the values of an attribute is made by this statement. -/
def dataTableSql (conf : SchemaConf) (attr : Bytes) : Bytes :=
  snprintf (SQL_SIZE - 1) (createDataTable (attr2id conf.md5 attr)
    (attrvalDbTypeIndex conf.plugins attr GLITE_JPIS_INDEX_LENGTH)
    (attrvalDbTypeFull conf.plugins attr))

/-- What is left of a printed text starts as the text, as far as there is room. -/
theorem exists_snprintf_append {size : ℕ} {start : Bytes} (h : start.length < size)
    (rest : Bytes) : ∃ rest', snprintf size (start ++ rest) = start ++ rest' :=
  ⟨rest.take (size - 1 - start.length), by
    rw [snprintf, List.take_append, List.take_of_length_le (by omega)]⟩

theorem notMem_attrTable (hid : ∀ b ∈ id, isHexDigit b = true) : ch ' ' ∉ attrTable id := by
  intro h
  rcases List.mem_append.1 h with h | h
  · exact absurd h (by decide)
  · exact absurd (hid _ h) (by decide)

theorem exists_dataTableSql (hmd5 : IsMd5 conf.md5) (attr : Bytes) : ∃ rest,
    dataTableSql conf attr =
      ascii "CREATE TABLE " ++ (attrTable (attr2id conf.md5 attr) ++ ch ' ' :: rest) := by
  have hlen : (attr2id conf.md5 attr).length = 32 := hmd5.length _
  have hname : ascii "CREATE TABLE attr_" = ascii "CREATE TABLE " ++ ascii "attr_" := by decide
  have hblank : ascii " (\n" = [ch ' '] ++ ascii "(\n" := by decide
  obtain ⟨rest, hrest⟩ : ∃ rest, createDataTable (attr2id conf.md5 attr)
      (attrvalDbTypeIndex conf.plugins attr GLITE_JPIS_INDEX_LENGTH)
      (attrvalDbTypeFull conf.plugins attr) =
        (ascii "CREATE TABLE " ++ attrTable (attr2id conf.md5 attr) ++ [ch ' ']) ++ rest := by
    refine ⟨?_, ?_⟩
    rotate_left
    · rw [createDataTable, hname, hblank, attrTable]
      simp only [List.append_assoc]
      rfl
  have hstart : (ascii "CREATE TABLE " ++ attrTable (attr2id conf.md5 attr) ++ [ch ' ']).length <
      SQL_SIZE - 1 := by
    have h₁ : (ascii "CREATE TABLE ").length = 13 := by decide
    have h₂ : (ascii "attr_").length = 5 := by decide
    rw [attrTable, List.length_append, List.length_append, List.length_append, hlen, h₁, h₂]
    decide
  obtain ⟨rest', hrest'⟩ := exists_snprintf_append hstart rest
  exact ⟨rest', by
    rw [dataTableSql, hrest, hrest', List.append_assoc, List.append_assoc, List.singleton_append]⟩

theorem exists_jobsSql (conf : SchemaConf) : ∃ rest,
    jobsSql conf = ascii "CREATE TABLE " ++ (ascii "jobs" ++ ch ' ' :: rest) := by
  have hbegin : ascii "CREATE TABLE jobs (\n" =
      (ascii "CREATE TABLE " ++ ascii "jobs" ++ [ch ' ']) ++ ascii "(\n" := by decide
  have hstart : (ascii "CREATE TABLE " ++ ascii "jobs" ++ [ch ' ']).length < SQL_SIZE := by decide
  obtain ⟨rest, hrest⟩ : ∃ rest, jobsTable conf =
      (ascii "CREATE TABLE " ++ ascii "jobs" ++ [ch ' ']) ++ rest := by
    refine ⟨?_, ?_⟩
    rotate_left
    · rw [jobsTable, createJobsTableBegin, hbegin]
      simp only [List.append_assoc]
      rfl
  obtain ⟨rest', hrest'⟩ := exists_snprintf_append hstart rest
  exact ⟨rest', by
    rw [jobsSql, hrest, hrest', List.append_assoc, List.append_assoc,
      List.singleton_append]⟩

/-- The statements that make the tables of a configuration fit into the buffer. -/
structure SchemaConf.Fits (conf : SchemaConf) : Prop where
  values : ∀ attr ∈ conf.attrs, (createDataTable (attr2id conf.md5 attr)
    (attrvalDbTypeIndex conf.plugins attr GLITE_JPIS_INDEX_LENGTH)
    (attrvalDbTypeFull conf.plugins attr)).length < SQL_SIZE - 1
  jobs : (jobsTable conf).length < SQL_SIZE

theorem closesColumns_append {rest : Bytes} (h : ascii "\n)" <:+: rest) (start : Bytes) :
    StartDb.closesColumns (start ++ rest) = true :=
  isSome_strstr (h.trans (List.suffix_append start rest).isInfix)

theorem SchemaConf.Fits.closes_values (h : conf.Fits) {attr : Bytes} (hattr : attr ∈ conf.attrs) :
    StartDb.closesColumns (dataTableSql conf attr) = true := by
  rw [dataTableSql, (snprintf_eq_self_iff (by decide)).2 (h.values attr hattr), createDataTable]
  simp only [← List.append_assoc]
  rw [List.append_assoc]
  exact closesColumns_append (by decide +kernel) _

theorem SchemaConf.Fits.closes_jobs (h : conf.Fits) :
    StartDb.closesColumns (jobsSql conf) = true := by
  rw [jobsSql, (snprintf_eq_self_iff (by decide)).2 h.jobs, jobsTable]
  exact closesColumns_append (by decide +kernel) _

end Texts

/-! ## Making the tables -/

/-- The row of an attribute. -/
def attrsRow (conf : SchemaConf) (attr : Bytes) : AttrsRow :=
  ⟨attr2id conf.md5 attr, attr, (indexed conf attr).toNat⟩

namespace StartDb

variable (conf : SchemaConf)

/-- The database with an attribute and an empty table of its values. -/
def withAttr (d : StartDb) (attr : Bytes) : StartDb :=
  let attrid := attr2id conf.md5 attr
  { d with
    rows := { d.rows with
      attrs := d.rows.attrs ++ [attrsRow conf attr]
      values := Function.update d.rows.values attrid [] }
    types := Function.update d.types attrid (some (attrvalDbTypeFull conf.plugins attr))
    tables := Function.update d.tables (attrTable attrid) (some (dataTableSql conf attr)) }

/-- The database with an empty table of the jobs. -/
def withJobs (d : StartDb) : StartDb :=
  { d with
    rows := { d.rows with jobs := .empty }
    tables := Function.update d.tables (ascii "jobs") (some (jobsSql conf)) }

variable {conf} {d : StartDb} {attr : Bytes}

theorem withAttr_tables : (d.withAttr conf attr).tables =
    Function.update d.tables (attrTable (attr2id conf.md5 attr))
      (some (dataTableSql conf attr)) := rfl

theorem withAttr_attrs :
    (d.withAttr conf attr).rows.attrs = d.rows.attrs ++ [attrsRow conf attr] := rfl

theorem withJobs_tables : (d.withJobs conf).tables =
    Function.update d.tables (ascii "jobs") (some (jobsSql conf)) := rfl

end StartDb

section Setup

variable {plan} {s t : Connection} {conf : SchemaConf} {calls calls' : List SetupCall}

theorem perform_drop (t : Connection) (rest : Bytes) :
    SetupCall.perform (.execSQL (ascii "DROP TABLE " ++ rest)) t =
      (t.db.dropTable rest).map fun db => ([], { t with db }) := by
  have hne : ascii "DROP TABLE " ++ rest ≠ ascii "SELECT COUNT(*) FROM attrs" := fun h =>
    absurd (h ▸ List.prefix_append (ascii "DROP TABLE ") rest) (by decide)
  rw [SetupCall.perform, if_neg hne, Connection.execSQL, execSql_drop, Option.map_map]
  rfl

theorem perform_create {name : Bytes} (hname : ch ' ' ∉ name) (t : Connection) (rest : Bytes) :
    SetupCall.perform (.execSQL (ascii "CREATE TABLE " ++ (name ++ ch ' ' :: rest))) t =
      (t.db.createTable name (ascii "CREATE TABLE " ++ (name ++ ch ' ' :: rest))).map
        fun db => ([], { t with db }) := by
  have hne : ascii "CREATE TABLE " ++ (name ++ ch ' ' :: rest) ≠
      ascii "SELECT COUNT(*) FROM attrs" := fun h =>
    absurd (h ▸ List.prefix_append (ascii "CREATE TABLE ") _) (by decide)
  rw [SetupCall.perform, if_neg hne, Connection.execSQL, execSql_create hname, Option.map_map]
  rfl

theorem perform_count (t : Connection) : countAttrs.perform t =
    some ([], { t with cursor := [printNat t.db.rows.attrs.length] }) := by
  rw [countAttrs, SetupCall.perform, if_pos rfl]

theorem perform_fetchRow (t : Connection) : SetupCall.perform .fetchRow t =
    t.cursor.head?.map fun row => (row, { t with cursor := t.cursor.tail }) := rfl

theorem perform_prepareStmt (sql : Bytes) (t : Connection) :
    SetupCall.perform (.prepareStmt sql) t = some ([], t) := rfl

theorem after_append (c : SetupCall) :
    s.after plan (calls ++ [c]) = ((s.after plan calls).call plan c.perform).2 := by
  rw [Connection.after, Connection.after, List.foldl_append, List.foldl_cons, List.foldl_nil]

/-- A call that did not fail has done what it does. -/
theorem perform_of_demand {c : SetupCall} {code : ℕ} {desc answer : Bytes}
    (h : demand (s.answering plan) c code desc calls = .ok answer calls') :
    c.perform (s.after plan calls).next = some (answer, s.after plan calls') := by
  obtain ⟨hanswer, rfl⟩ := demand_eq_ok _ h
  rw [after_append]
  exact call_eq_some hanswer

theorem createTable_eq_some {d d' : StartDb} {name sql : Bytes} :
    d.createTable name sql = some d' ↔
      (d.tables name = none ∧ StartDb.closesColumns sql = true) ∧
        { d with rows := d.rows.emptied name,
                 tables := Function.update d.tables name (some sql) } = d' := by
  rw [StartDb.createTable, ite_eq_iff]
  simp

theorem dropTable_eq_some {d d' : StartDb} {name : Bytes} (h : d.dropTable name = some d') :
    { d with rows := d.rows.emptied name, tables := Function.update d.tables name none } = d' := by
  unfold StartDb.dropTable at h
  split_ifs at h
  exact Option.some.inj h

theorem emptied_attrTable (db : IndexDb) (id : Bytes) :
    db.emptied (attrTable id) = { db with values := Function.update db.values id [] } := by
  rw [IndexDb.emptied, if_neg attrTable_ne_jobs, drop_attrTable]

theorem insertAttr_eq_some {d d' : StartDb} {row : AttrsRow} {type : Bytes} :
    d.insertAttr row type = some d' ↔ row.attrid ∉ d.rows.attrs.map AttrsRow.attrid ∧
      { d with rows := { d.rows with attrs := d.rows.attrs ++ [row] },
               types := Function.update d.types row.attrid (some type) } = d' := by
  rw [StartDb.insertAttr, ite_eq_iff]
  simp

/-- The table of the values of an attribute is new, whatever has become of the statement
    that drops it. -/
theorem initAttr_after (hmd5 : IsMd5 conf.md5) {attr : Bytes}
    (h : initAttr conf attr (s.answering plan) calls = .ok () calls') :
    attr2id conf.md5 attr ∉ (s.after plan calls).db.rows.attrs.map AttrsRow.attrid ∧
      (s.after plan calls').db = (s.after plan calls).db.withAttr conf attr := by
  rw [initAttr, isIndexed_of_ne_nil conf attr (initAttr_indexed conf attr _ h)] at h
  obtain ⟨_, calls₁, hinsert, h⟩ := bind_eq_ok.1 ((liftM_bind _ _ _).symm.trans h)
  obtain ⟨_, calls₂, hdrop, h⟩ := bind_eq_ok.1 h
  obtain ⟨_, calls₃, hcreate, h⟩ := bind_eq_ok.1 h
  obtain ⟨-, rfl⟩ := EStateM.Result.ok.inj h
  obtain ⟨-, rfl⟩ := EStateM.Result.ok.inj hdrop
  -- the attribute is inserted
  obtain ⟨d₁, hnew, h₁⟩ := Option.map_eq_some_iff.1 (perform_of_demand hinsert)
  obtain ⟨hmem, hd₁⟩ := insertAttr_eq_some.1 hnew
  have hinserted : (s.after plan calls₁).db = d₁ := by rw [← (Prod.mk.inj h₁).2]
  refine ⟨hmem, ?_⟩
  -- its table is made
  obtain ⟨rest, hrest⟩ := exists_dataTableSql hmd5 attr
  have hdigits : ∀ b ∈ attr2id conf.md5 attr, isHexDigit b = true := hmd5.digits _
  have hcreate := perform_of_demand hcreate
  rw [← dataTableSql, hrest, perform_create (notMem_attrTable hdigits), ← hrest] at hcreate
  obtain ⟨d₃, hcreate, h₃⟩ := Option.map_eq_some_iff.1 hcreate
  obtain ⟨-, hd₃⟩ := createTable_eq_some.1 hcreate
  have hmade : (s.after plan calls₃).db = d₃ := by rw [← (Prod.mk.inj h₃).2]
  -- what was dropped before is nothing, or the table of this name
  have hlen : (attr2id conf.md5 attr).length = 32 := hmd5.length _
  rw [hmade, ← hd₃, next_db, after_append, emptied_attrTable, dropDataTable_eq hlen]
  rcases call_cases plan (SetupCall.execSQL (ascii "DROP TABLE " ++
      attrTable (attr2id conf.md5 attr))).perform (s.after plan calls₁) with hnext | ⟨_, hcall⟩
  · rw [hnext, next_db, hinserted, ← hd₁]
    rfl
  · rw [perform_drop] at hcall
    obtain ⟨d₂, hdrop, h₂⟩ := Option.map_eq_some_iff.1 hcall
    have hdropped := dropTable_eq_some hdrop
    rw [← (Prod.mk.inj h₂).2, ← hdropped, next_db, hinserted, ← hd₁, emptied_attrTable]
    simp only [Function.update_idem]
    rfl

/-- The tables of all attributes are, and no two of them have the same identifier. -/
theorem initAttrs_after (hmd5 : IsMd5 conf.md5) {attrs : List Bytes}
    (h : attrs.forM (initAttr conf · (s.answering plan)) calls = .ok () calls') :
    (attrs.map (attr2id conf.md5)).Nodup ∧
      (∀ attr ∈ attrs,
        attr2id conf.md5 attr ∉ (s.after plan calls).db.rows.attrs.map AttrsRow.attrid) ∧
      (s.after plan calls').db = attrs.foldl (·.withAttr conf) (s.after plan calls).db := by
  induction attrs generalizing calls with
  | nil =>
    obtain ⟨-, rfl⟩ := EStateM.Result.ok.inj h
    exact ⟨List.nodup_nil, List.forall_mem_nil _, rfl⟩
  | cons attr attrs ih =>
    obtain ⟨_, calls₁, hattr, h⟩ := bind_eq_ok.1 h
    obtain ⟨hmem, hdb⟩ := initAttr_after hmd5 hattr
    obtain ⟨hnodup, hnew, hrest⟩ := ih h
    have hids : (s.after plan calls₁).db.rows.attrs.map AttrsRow.attrid =
        (s.after plan calls).db.rows.attrs.map AttrsRow.attrid ++ [attr2id conf.md5 attr] := by
      rw [hdb]
      exact List.map_append
    simp only [hids, List.mem_append, List.mem_singleton, not_or] at hnew
    refine ⟨List.nodup_cons.2 ⟨fun hin => ?_, hnodup⟩,
      List.forall_mem_cons.2 ⟨hmem, fun a ha => (hnew a ha).1⟩, ?_⟩
    · obtain ⟨a, ha, heq⟩ := List.mem_map.1 hin
      exact (hnew a ha).2 heq
    · rw [hrest, hdb, List.foldl_cons]

/-- The number of the attributes is what is fetched. -/
theorem fetched_after {code code' : ℕ} {desc desc' num answer : Bytes}
    {calls₁ calls₂ : List SetupCall}
    (hcount : demand (s.answering plan) countAttrs code desc calls = .ok answer calls₁)
    (hfetch : demand (s.answering plan) .fetchRow code' desc' calls₁ = .ok num calls₂) :
    num = printNat (s.after plan calls).db.rows.attrs.length ∧
      (s.after plan calls₂).db = (s.after plan calls).db := by
  have hcount := perform_of_demand hcount
  have hfetch := perform_of_demand hfetch
  rw [perform_count] at hcount
  rw [← (Prod.mk.inj (Option.some.inj hcount)).2, perform_fetchRow] at hfetch
  obtain ⟨rfl, hafter⟩ := Prod.mk.inj (Option.some.inj hfetch)
  exact ⟨rfl, by rw [← hafter]; rfl⟩

theorem foldl_withAttr_jobs (conf : SchemaConf) (attrs : List Bytes) (d : StartDb) :
    (attrs.foldl (·.withAttr conf) d).tables (ascii "jobs") = d.tables (ascii "jobs") := by
  induction attrs generalizing d with
  | nil => rfl
  | cons attr attrs ih =>
    rw [List.foldl_cons, ih, StartDb.withAttr_tables, Function.update_of_ne attrTable_ne_jobs.symm]

/-- `initDatabase` leaves everything as it is, when it is told that there are attributes, or
    makes all tables; the one of the jobs was not there then. -/
theorem initDatabase_after (hmd5 : IsMd5 conf.md5)
    (h : initDatabase conf (s.answering plan) [] = .ok () calls) :
    (atoi (printNat s.db.rows.attrs.length) ≠ 0 ∧ (s.after plan calls).db = s.db) ∨
      (atoi (printNat s.db.rows.attrs.length) = 0 ∧ (conf.attrs.map (attr2id conf.md5)).Nodup ∧
        s.db.tables (ascii "jobs") = none ∧
        (s.after plan calls).db = (conf.attrs.foldl (·.withAttr conf) s.db).withJobs conf) := by
  obtain ⟨_, calls₁, hcount, h⟩ := bind_eq_ok.1 h
  obtain ⟨num, calls₂, hfetch, h⟩ := bind_eq_ok.1 h
  obtain ⟨rfl, hcounted⟩ := fetched_after hcount hfetch
  have hnil : s.after plan [] = s := rfl
  rw [hnil] at hcounted h
  split_ifs at h with hnum
  · obtain ⟨-, rfl⟩ := EStateM.Result.ok.inj h
    exact .inl ⟨hnum, hcounted⟩
  · obtain ⟨_, calls₃, hprepare, h⟩ := bind_eq_ok.1 h
    obtain ⟨_, calls₄, hattrs, h⟩ := bind_eq_ok.1 h
    rw [createJobsSql_eq conf (listsIndexes_of_initAttrs conf _ hattrs)] at h
    obtain ⟨_, calls₅, hjobs, h⟩ := bind_eq_ok.1 ((liftM_bind _ _ _).symm.trans h)
    obtain ⟨-, rfl⟩ := EStateM.Result.ok.inj h
    have hprepare := perform_of_demand hprepare
    rw [perform_prepareStmt] at hprepare
    have hsame : (s.after plan calls₃).db = s.db := by
      rw [← (Prod.mk.inj (Option.some.inj hprepare)).2, next_db, hcounted]
    obtain ⟨hnodup, -, hdb⟩ := initAttrs_after hmd5 hattrs
    -- the table of the jobs is made last
    obtain ⟨rest, hrest⟩ := exists_jobsSql conf
    have hjobs := perform_of_demand hjobs
    rw [hrest, perform_create (by decide), ← hrest, next_db, hdb, hsame] at hjobs
    obtain ⟨d, hcreate, h₅⟩ := Option.map_eq_some_iff.1 hjobs
    obtain ⟨⟨hnone, -⟩, hd⟩ := createTable_eq_some.1 hcreate
    refine .inr ⟨not_not.1 hnum, hnodup, foldl_withAttr_jobs conf _ _ ▸ hnone, ?_⟩
    rw [← (Prod.mk.inj h₅).2, ← hd]
    rfl

theorem left_demand (db : SetupDb) (c : SetupCall) (code : ℕ) (desc : Bytes) :
    left (demand db c code desc calls) = calls ++ [c] := by
  rw [demand, bind_eq, ask]
  cases db calls c <;> rfl

/-- Where there are attributes, `initDatabase` leaves everything as it is, however it ends. -/
theorem initDatabase_keeps (hne : atoi (printNat s.db.rows.attrs.length) ≠ 0) :
    (s.after plan (left (initDatabase conf (s.answering plan) []))).db = s.db := by
  have hcounts : (s.after plan [countAttrs]).db = s.db := by
    refine call_keeps (P := (· = s.db)) (fun t a u ht hperform => ?_) rfl
    rw [perform_count] at hperform
    rw [← (Prod.mk.inj (Option.some.inj hperform)).2, ht]
  have hfetches : (s.after plan ([countAttrs] ++ [.fetchRow])).db = s.db := by
    rw [after_append]
    refine call_keeps (P := (· = s.db)) (fun t a u ht hperform => ?_) hcounts
    rw [perform_fetchRow] at hperform
    obtain ⟨row, -, hu⟩ := Option.map_eq_some_iff.1 hperform
    rw [← (Prod.mk.inj hu).2, ht]
  have hleft : left (demand (s.answering plan) countAttrs SetupError.EIO
      (ascii "error during counting attrs") []) = [countAttrs] := left_demand ..
  rw [initDatabase, bind_eq]
  cases hcount : demand (s.answering plan) countAttrs SetupError.EIO
      (ascii "error during counting attrs") [] with
  | error e calls₁ =>
    rw [hcount] at hleft
    rw [left_error, show calls₁ = [countAttrs] from hleft, hcounts]
  | ok _ calls₁ =>
    rw [hcount] at hleft
    obtain rfl : calls₁ = [countAttrs] := hleft
    have hleft : left (demand (s.answering plan) .fetchRow SetupError.EIO
        (ascii "error during fetching attrs") [countAttrs]) = [countAttrs] ++ [.fetchRow] :=
      left_demand ..
    simp only [bind_eq]
    cases hfetch : demand (s.answering plan) .fetchRow SetupError.EIO
        (ascii "error during fetching attrs") [countAttrs] with
    | error e calls₂ =>
      rw [hfetch] at hleft
      rw [left_error, show calls₂ = [countAttrs] ++ [.fetchRow] from hleft, hfetches]
    | ok num calls₂ =>
      rw [hfetch] at hleft
      obtain ⟨hnum, -⟩ := fetched_after hcount hfetch
      have hnum : atoi num ≠ 0 := hnum ▸ hne
      simp only [if_pos hnum]
      exact (congrArg (fun calls => (s.after plan calls).db) hleft).trans hfetches

end Setup

/-! ## The other parts of a start -/

/-- A database that differs from another one in its feeds only. -/
def StartDb.OnlyFeeds (d d' : StartDb) : Prop :=
  ∃ feeds conditions nextFeed,
    d' = { d with rows := { d.rows with feeds }, conditions, nextFeed }

theorem StartDb.OnlyFeeds.trans {d d' d'' : StartDb} (h : d.OnlyFeeds d')
    (h' : d'.OnlyFeeds d'') : d.OnlyFeeds d'' := by
  obtain ⟨_, _, _, rfl⟩ := h
  obtain ⟨feeds, conditions, nextFeed, rfl⟩ := h'
  exact ⟨feeds, conditions, nextFeed, rfl⟩

/-- The row a feed is stored as. -/
def StartFeed.row (uniqueid : ℕ) (feed : StartFeed) : FeedRow :=
  ⟨uniqueid, none, feed.state, 0, feed.psUrl, none⟩

/-- Some feeds are added, with their conditions. -/
structure FeedsAdded (feeds : List StartFeed) (ids : List ℕ) (d d' : StartDb) : Prop where
  length : ids.length = feeds.length
  rows : d'.rows.feeds.rows = d.rows.feeds.rows ++ List.zipWith StartFeed.row ids feeds
  conditions : ∀ p ∈ ids.zip feeds, d.nextFeed ≤ p.1 ∧
    ∃ conds, dbQueriesSerialize p.2.query = .ok conds ∧ d'.conditions p.1 = some conds
  before : ∀ u < d.nextFeed, d'.conditions u = d.conditions u
  only : d.OnlyFeeds d'

section Parts

variable {plan} {s t : Connection} {α : Type}

theorem setup_eq_ok {x : SetupDb → Setup α} {a : α} (h : setup plan x s = .ok a t) :
    ∃ calls, x (s.answering plan) [] = .ok a calls ∧ s.after plan calls = t := by
  unfold setup at h
  split at h
  · rename_i b calls hx
    obtain ⟨rfl, rfl⟩ := EStateM.Result.ok.inj h
    exact ⟨calls, hx, rfl⟩
  · cases h

theorem left_setup (x : SetupDb → Setup α) :
    left (setup plan x s) = s.after plan (left (x (s.answering plan) [])) := by
  unfold setup
  cases x (s.answering plan) [] <;> rfl

theorem prepares_eq_ok {e : StartFailure} {tables : List Bytes}
    (h : tables.forM (fun table => mustCall plan e (Connection.prepareStmt table)) s =
      .ok () t) : t.db = s.db ∧ ∀ table ∈ tables, s.db.hasTable table = true := by
  induction tables generalizing s with
  | nil =>
    obtain ⟨-, rfl⟩ := EStateM.Result.ok.inj h
    exact ⟨rfl, List.forall_mem_nil _⟩
  | cons table tables ih =>
    obtain ⟨_, s₁, hprepare, h⟩ := bind_eq_ok.1 h
    obtain ⟨hhas, rfl⟩ := prepareStmt_eq_some.1 (mustCall_eq_ok hprepare)
    obtain ⟨hdb, htables⟩ := ih h
    exact ⟨hdb, List.forall_mem_cons.2 ⟨hhas, htables⟩⟩

/-- A server starts only where there is a table of the jobs. -/
theorem initDb_eq_ok (h : initDb plan s = .ok () t) :
    t.db = s.db ∧ s.db.tables (ascii "jobs") ≠ none := by
  obtain ⟨_, s₁, hconnect, h⟩ := bind_eq_ok.1 h
  obtain ⟨-, rfl⟩ := Prod.mk.inj (Option.some.inj (mustCall_eq_ok hconnect))
  obtain ⟨hdb, htables⟩ := prepares_eq_ok h
  have hjobs := htables (ascii "jobs") (by decide)
  refine ⟨hdb, fun hnone => ?_⟩
  rw [StartDb.hasTable, next_db, hnone, Option.isSome_none, Bool.or_false] at hjobs
  exact absurd hjobs (by decide)

theorem loadPlugins_eq_ok {conf : StartConf} (h : loadPlugins conf s = .ok () t) :
    conf.pluginFiles ≠ [] ∧ s = t := by
  unfold loadPlugins at h
  split_ifs at h with hnil
  · cases h
  · exact ⟨hnil, (pure_eq_ok.1 h).2⟩

theorem execSql_deleteAttrs (d : StartDb) : d.execSql (ascii "DELETE FROM attrs") =
    some { d with rows := { d.rows with attrs := [] }, types := fun _ => none } := by
  rw [StartDb.execSql, if_neg (by decide), if_neg (by decide), if_pos rfl]

theorem execSql_deleteFeeds (d : StartDb) : d.execSql (ascii "DELETE FROM feeds") =
    some { d with rows := { d.rows with feeds := .empty }, conditions := fun _ => none } := by
  rw [StartDb.execSql, if_neg (by decide), if_neg (by decide), if_neg (by decide), if_pos rfl]

theorem execSql_deleteUsers (d : StartDb) : d.execSql (ascii "DELETE FROM users") =
    some { d with rows := { d.rows with users := .empty } } := by
  rw [StartDb.execSql, if_neg (by decide), if_neg (by decide), if_neg (by decide),
    if_neg (by decide), if_pos rfl]

theorem execSql_deleteAcls (d : StartDb) : d.execSql (ascii "DELETE FROM acls") = some d := by
  rw [StartDb.execSql, if_neg (by decide), if_neg (by decide), if_neg (by decide),
    if_neg (by decide), if_neg (by decide), if_pos rfl]

/-- When the database was dropped, it has no attributes and no users, whatever tables are
    left. -/
theorem dropDatabase_eq_ok (h : dropDatabase plan s = .ok () t) :
    t.db.rows.attrs = [] ∧ t.db.rows.users.rows = [] := by
  obtain ⟨_, _, -, h⟩ := bind_eq_ok.1 h
  obtain ⟨attrids, _, -, h⟩ := bind_eq_ok.1 h
  obtain ⟨_, _, -, h⟩ := bind_eq_ok.1 h
  obtain ⟨_, s₁, -, h⟩ := bind_eq_ok.1 h
  obtain ⟨_, s₂, hattrs, h⟩ := bind_eq_ok.1 h
  obtain ⟨_, s₃, hfeeds, h⟩ := bind_eq_ok.1 h
  obtain ⟨_, s₄, husers, hacls⟩ := bind_eq_ok.1 h
  obtain ⟨d₂, h₂, rfl⟩ := execSQL_eq_some.1 (mustCall_eq_ok hattrs)
  obtain ⟨d₃, h₃, rfl⟩ := execSQL_eq_some.1 (mustCall_eq_ok hfeeds)
  obtain ⟨d₄, h₄, rfl⟩ := execSQL_eq_some.1 (mustCall_eq_ok husers)
  obtain ⟨d₅, h₅, rfl⟩ := execSQL_eq_some.1 (mustCall_eq_ok hacls)
  rw [execSql_deleteAttrs] at h₂
  rw [execSql_deleteFeeds] at h₃
  rw [execSql_deleteUsers] at h₄
  rw [execSql_deleteAcls] at h₅
  obtain rfl := Option.some.inj h₂
  obtain rfl := Option.some.inj h₃
  obtain rfl := Option.some.inj h₄
  obtain rfl := Option.some.inj h₅
  exact ⟨rfl, rfl⟩

theorem insertFeed_eq_ok {feed : StartFeed} {u : ℕ} (h : insertFeed plan feed s = .ok u t) :
    FeedsAdded [feed] [u] s.db t.db ∧ t.db.nextFeed = u + 1 ∧ u = s.db.nextFeed := by
  unfold insertFeed at h
  cases hconds : dbQueriesSerialize feed.query with
  | error e =>
    rw [hconds] at h
    cases h
  | ok conds =>
    rw [hconds] at h
    obtain ⟨⟨_, d⟩, hinsert, heq⟩ := Option.map_eq_some_iff.1 (mustCall_eq_ok h)
    obtain ⟨rfl, rfl⟩ := Prod.mk.inj heq
    obtain ⟨feeds, hfeeds, heq⟩ := Option.map_eq_some_iff.1 hinsert
    obtain ⟨rfl, rfl⟩ := Prod.mk.inj heq
    refine ⟨⟨rfl, (Table.insert_eq_some.1 hfeeds).2, ?_, fun u hu => ?_, _, _, _, rfl⟩, rfl, rfl⟩
    · rintro p hp
      obtain rfl := List.mem_singleton.1 hp
      exact ⟨le_rfl, conds, hconds, Function.update_self ..⟩
    · exact Function.update_of_ne hu.ne ..

/-- A feed is added, and then others. -/
theorem FeedsAdded.cons {feed : StartFeed} {feeds : List StartFeed} {us : List ℕ}
    {d d₁ d₂ : StartDb} (h : FeedsAdded [feed] [d.nextFeed] d d₁)
    (hnext : d₁.nextFeed = d.nextFeed + 1) (h' : FeedsAdded feeds us d₁ d₂) :
    FeedsAdded (feed :: feeds) (d.nextFeed :: us) d d₂ where
  length := congrArg Nat.succ h'.length
  rows := by rw [h'.rows, h.rows, List.append_assoc]; rfl
  conditions := by
    rw [List.zip_cons_cons, List.forall_mem_cons]
    refine ⟨⟨le_rfl, ?_⟩, fun p hp => ?_⟩
    · obtain ⟨-, conds, hconds, hstored⟩ := h.conditions _ (List.mem_singleton_self _)
      exact ⟨conds, hconds, (h'.before _ (hnext ▸ Nat.lt_succ_self _)).trans hstored⟩
    · obtain ⟨hle, hstored⟩ := h'.conditions p hp
      exact ⟨by omega, hstored⟩
  before u hu := (h'.before u (by omega)).trans (h.before u hu)
  only := h.only.trans h'.only

/-- The feeds are stored one after the other. -/
theorem insertFeeds_eq_ok {feeds : List StartFeed} {ids : List ℕ}
    (h : feeds.mapM (insertFeed plan) s = .ok ids t) : FeedsAdded feeds ids s.db t.db := by
  induction feeds generalizing s ids with
  | nil =>
    obtain ⟨rfl, rfl⟩ := EStateM.Result.ok.inj h
    exact ⟨rfl, (List.append_nil _).symm, List.forall_mem_nil _, fun _ _ => rfl, _, _, _, rfl⟩
  | cons feed feeds ih =>
    rw [List.mapM_cons] at h
    obtain ⟨u, s₁, hfeed, h⟩ := bind_eq_ok.1 h
    obtain ⟨us, s₂, hfeeds, h⟩ := bind_eq_ok.1 h
    obtain ⟨rfl, rfl⟩ := pure_eq_ok.1 h
    obtain ⟨hfirst, hnext, rfl⟩ := insertFeed_eq_ok hfeed
    have hrest := ih hfeeds
    exact hfirst.cons hnext hrest

/-- The feeds that are there in the end are those of the configuration. -/
theorem initDatabaseFeeds_eq_ok {feeds : List StartFeed} {ids : List ℕ}
    (h : initDatabaseFeeds plan feeds s = .ok ids t) :
    s.db.OnlyFeeds t.db ∧ ids.length = feeds.length ∧
      t.db.rows.feeds.rows = List.zipWith StartFeed.row ids feeds ∧
      ∀ p ∈ ids.zip feeds, ∃ conds, dbQueriesSerialize p.2.query = .ok conds ∧
        t.db.conditions p.1 = some conds := by
  obtain ⟨_, s₁, hdelete, h⟩ := bind_eq_ok.1 h
  obtain ⟨_, s₂, hprepare, h⟩ := bind_eq_ok.1 h
  obtain ⟨d, hdeleted, rfl⟩ := execSQL_eq_some.1 (mustCall_eq_ok hdelete)
  obtain ⟨-, rfl⟩ := prepareStmt_eq_some.1 (mustCall_eq_ok hprepare)
  rw [execSql_deleteFeeds] at hdeleted
  obtain rfl := Option.some.inj hdeleted
  have hadded := insertFeeds_eq_ok h
  refine ⟨.trans ⟨_, _, _, rfl⟩ hadded.only, hadded.length, hadded.rows, fun p hp => ?_⟩
  exact (hadded.conditions p hp).2

theorem keeps_insertFeed (d : StartDb) (feed : StartFeed) :
    Keeps (fun s => d.OnlyFeeds s.db) (insertFeed plan feed) := by
  unfold insertFeed
  cases dbQueriesSerialize feed.query with
  | error e => exact .throw _
  | ok conds =>
    refine keeps_mustCall fun s u t hs hinsert => ?_
    obtain ⟨⟨v, d'⟩, hstored, heq⟩ := Option.map_eq_some_iff.1 hinsert
    obtain ⟨feeds, -, hfeeds⟩ := Option.map_eq_some_iff.1 hstored
    rw [← (Prod.mk.inj heq).2, ← (Prod.mk.inj hfeeds).2]
    exact hs.trans ⟨_, _, _, rfl⟩

/-- Storing feeds changes feeds only, however it ends. -/
theorem keeps_initDatabaseFeeds (d : StartDb) (feeds : List StartFeed) :
    Keeps (fun s => d.OnlyFeeds s.db) (initDatabaseFeeds plan feeds) := by
  refine (keeps_mustCall fun s u t hs hdelete => ?_).bind fun _ =>
    (keeps_mustCall fun s u t hs hprepare => ?_).bind fun _ =>
      Keeps.mapM (fun feed => keeps_insertFeed d feed) feeds
  · obtain ⟨d', hd', rfl⟩ := execSQL_eq_some.1 hdelete
    rw [execSql_deleteFeeds] at hd'
    rw [← Option.some.inj hd']
    exact hs.trans ⟨_, _, _, rfl⟩
  · obtain ⟨-, rfl⟩ := prepareStmt_eq_some.1 hprepare
    exact hs

theorem keeps_loadPlugins {P : Connection → Prop} (conf : StartConf) :
    Keeps P (loadPlugins conf) := by
  unfold loadPlugins
  split_ifs
  · exact .throw _
  · exact .pure _

theorem keeps_initDb (d : StartDb) : Keeps (fun s => d.OnlyFeeds s.db) (initDb plan) := by
  refine (keeps_mustCall fun s u t hs hconnect => ?_).bind fun _ =>
    .forM (fun table => keeps_mustCall fun s u t hs hprepare => ?_) _
  · rw [← (Prod.mk.inj (Option.some.inj hconnect)).2]
    exact hs
  · obtain ⟨-, rfl⟩ := prepareStmt_eq_some.1 hprepare
    exact hs

end Parts

/-! ## Whole starts -/

/-- The tables of a configuration: each attribute is there once, with the table of its values,
    and the table of the jobs is the one that is made for them. -/
structure Complete (conf : SchemaConf) (d : StartDb) : Prop where
  attrs : d.rows.attrs = conf.attrs.map (attrsRow conf)
  distinct : (conf.attrs.map (attr2id conf.md5)).Nodup
  types : ∀ attr ∈ conf.attrs,
    d.types (attr2id conf.md5 attr) = some (attrvalDbTypeFull conf.plugins attr)
  data : ∀ attr ∈ conf.attrs,
    d.tables (attrTable (attr2id conf.md5 attr)) = some (dataTableSql conf attr)
  jobs : d.tables (ascii "jobs") = some (jobsSql conf)

/-- The tables of a configuration with nothing in them but its feeds, which have the numbers
    that the server knows them by. -/
structure Fresh (conf : StartConf) (ids : List ℕ) (d : StartDb) : Prop
    extends Complete conf.toSchemaConf d where
  noJobs : d.rows.jobs.rows = []
  noUsers : d.rows.users.rows = []
  noValues : ∀ attr ∈ conf.attrs, d.rows.values (attr2id conf.md5 attr) = []
  length : ids.length = conf.feeds.length
  feeds : d.rows.feeds.rows = List.zipWith StartFeed.row ids conf.feeds
  conditions : ∀ p ∈ ids.zip conf.feeds, ∃ conds, dbQueriesSerialize p.2.query = .ok conds ∧
    d.conditions p.1 = some conds

section Starts

variable {plan} {s t : Connection} {conf : SchemaConf}

theorem foldl_withAttr_attrs (attrs : List Bytes) (d : StartDb) :
    (attrs.foldl (·.withAttr conf) d).rows.attrs =
      d.rows.attrs ++ attrs.map (attrsRow conf) := by
  induction attrs generalizing d with
  | nil => exact (List.append_nil _).symm
  | cons attr attrs ih =>
    rw [List.foldl_cons, ih, StartDb.withAttr_attrs, List.map_cons, List.append_assoc,
      List.singleton_append]

theorem foldl_withAttr_users (attrs : List Bytes) (d : StartDb) :
    (attrs.foldl (·.withAttr conf) d).rows.users = d.rows.users := by
  induction attrs generalizing d with
  | nil => rfl
  | cons attr attrs ih => exact ih _

/-- What is there of an attribute of another identifier stays. -/
theorem foldl_withAttr_of_notMem {attrs : List Bytes} {id : Bytes} (d : StartDb)
    (h : id ∉ attrs.map (attr2id conf.md5)) :
    (attrs.foldl (·.withAttr conf) d).types id = d.types id ∧
      (attrs.foldl (·.withAttr conf) d).tables (attrTable id) = d.tables (attrTable id) ∧
      (attrs.foldl (·.withAttr conf) d).rows.values id = d.rows.values id := by
  induction attrs generalizing d with
  | nil => exact ⟨rfl, rfl, rfl⟩
  | cons attr attrs ih =>
    rw [List.map_cons, List.mem_cons, not_or] at h
    obtain ⟨htypes, htables, hvalues⟩ := ih (d.withAttr conf attr) h.2
    rw [List.foldl_cons]
    exact ⟨htypes.trans (Function.update_of_ne h.1 ..),
      htables.trans (Function.update_of_ne (fun heq => h.1 (attrTable_inj.1 heq)) ..),
      hvalues.trans (Function.update_of_ne h.1 ..)⟩

/-- Every attribute has its type and an empty table, as none that follows has its
    identifier. -/
theorem foldl_withAttr_of_mem {attrs : List Bytes} {attr : Bytes} (d : StartDb)
    (h : (attrs.map (attr2id conf.md5)).Nodup) (hattr : attr ∈ attrs) :
    (attrs.foldl (·.withAttr conf) d).types (attr2id conf.md5 attr) =
        some (attrvalDbTypeFull conf.plugins attr) ∧
      (attrs.foldl (·.withAttr conf) d).tables (attrTable (attr2id conf.md5 attr)) =
        some (dataTableSql conf attr) ∧
      (attrs.foldl (·.withAttr conf) d).rows.values (attr2id conf.md5 attr) = [] := by
  induction attrs generalizing d with
  | nil => exact absurd hattr List.not_mem_nil
  | cons first attrs ih =>
    obtain ⟨hnew, hnodup⟩ := List.nodup_cons.1 h
    rw [List.foldl_cons]
    rcases List.mem_cons.1 hattr with rfl | hattr
    · obtain ⟨htypes, htables, hvalues⟩ := foldl_withAttr_of_notMem (d.withAttr conf attr) hnew
      exact ⟨htypes.trans (Function.update_self ..), htables.trans (Function.update_self ..),
        hvalues.trans (Function.update_self ..)⟩
    · exact ih _ hnodup hattr

/-- All tables are made where there were no attributes. -/
theorem complete_withJobs {d : StartDb} (hd : d.rows.attrs = [])
    (h : (conf.attrs.map (attr2id conf.md5)).Nodup) :
    Complete conf ((conf.attrs.foldl (·.withAttr conf) d).withJobs conf) where
  attrs := (foldl_withAttr_attrs _ _).trans (by rw [hd, List.nil_append])
  distinct := h
  types attr hattr := (foldl_withAttr_of_mem d h hattr).1
  data attr hattr := by
    rw [StartDb.withJobs_tables, Function.update_of_ne attrTable_ne_jobs]
    exact (foldl_withAttr_of_mem d h hattr).2.1
  jobs := by rw [StartDb.withJobs_tables, Function.update_self]

theorem Complete.onlyFeeds {d d' : StartDb} (h : Complete conf d) (hd : d.OnlyFeeds d') :
    Complete conf d' := by
  obtain ⟨_, _, _, rfl⟩ := hd
  exact ⟨h.attrs, h.distinct, h.types, h.data, h.jobs⟩

/-- Whatever was in the database, and whichever statements have failed, after a start with
    `-D` that has succeeded it has the tables of the configuration, all of them empty, and
    its feeds. -/
theorem fresh_of_startServer {conf : StartConf} (hmd5 : IsMd5 conf.md5)
    (hdelete : conf.deleteDb = true) {ids : List ℕ} (h : startServer plan conf s = .ok ids t) :
    Fresh conf ids t.db := by
  unfold startServer at h
  rw [hdelete, if_pos rfl, Bool.true_or, if_pos rfl] at h
  obtain ⟨_, s₀, hinit, h⟩ := bind_eq_ok.1 h
  obtain ⟨_, s₁, hload, h⟩ := bind_eq_ok.1 h
  obtain ⟨_, s₂, hdrop, h⟩ := bind_eq_ok.1 h
  obtain ⟨_, s₃, hsetup, hfeeds⟩ := bind_eq_ok.1 h
  obtain ⟨hattrs, husers⟩ := dropDatabase_eq_ok hdrop
  obtain ⟨calls, hcalls, rfl⟩ := setup_eq_ok hsetup
  have hzero : atoi (printNat s₂.db.rows.attrs.length) = 0 := by
    rw [hattrs]
    decide
  obtain ⟨hne, -⟩ | ⟨-, hdistinct, -, hdb⟩ := initDatabase_after hmd5 hcalls
  · exact absurd hzero hne
  obtain ⟨honly, hlength, hrows, hconditions⟩ := initDatabaseFeeds_eq_ok hfeeds
  have hcomplete := (hdb ▸ complete_withJobs hattrs hdistinct).onlyFeeds honly
  rw [hdb] at honly
  obtain ⟨_, _, _, hd⟩ := honly
  refine ⟨hcomplete, ?_, ?_, fun attr hattr => ?_, hlength, hrows, hconditions⟩
  · rw [hd]
    rfl
  · rw [hd]
    exact (congrArg Table.rows (foldl_withAttr_users _ _)).trans husers
  · rw [hd]
    exact (foldl_withAttr_of_mem s₂.db hdistinct hattr).2.2

/-- A start without `-D` has succeeded only where the table of the jobs and the attributes were
    there, and it has changed nothing but the feeds. -/
theorem startServer_keep_eq_ok {conf : StartConf} (hmd5 : IsMd5 conf.md5)
    (hdelete : conf.deleteDb = false) {ids : List ℕ} (h : startServer plan conf s = .ok ids t) :
    s.db.tables (ascii "jobs") ≠ none ∧ atoi (printNat s.db.rows.attrs.length) ≠ 0 ∧
      s.db.OnlyFeeds t.db := by
  unfold startServer at h
  rw [hdelete, Bool.false_or] at h
  obtain ⟨_, s₁, hinit, h⟩ := bind_eq_ok.1 h
  obtain ⟨_, s₀, hload, h⟩ := bind_eq_ok.1 h
  obtain ⟨-, rfl⟩ := loadPlugins_eq_ok hload
  obtain ⟨_, s₂, hsetup, hfeeds⟩ := bind_eq_ok.1 h
  obtain ⟨hsame, hjobs⟩ := initDb_eq_ok hinit
  obtain ⟨calls, hcalls, rfl⟩ := setup_eq_ok hsetup
  obtain ⟨hne, hdb⟩ | ⟨-, -, hnone, -⟩ := initDatabase_after hmd5 hcalls
  · rw [hsame] at hne hdb
    refine ⟨hjobs, hne, ?_⟩
    split_ifs at hfeeds
    · exact hdb ▸ (initDatabaseFeeds_eq_ok hfeeds).1
    · obtain ⟨-, rfl⟩ := pure_eq_ok.1 hfeeds
      exact ⟨_, _, _, hdb⟩
  · exact absurd (hsame ▸ hnone) hjobs

/-- Where there are attributes, a start without `-D` changes nothing but the feeds, however it
    ends. -/
theorem keeps_startServer {conf : StartConf} (hdelete : conf.deleteDb = false) {d : StartDb}
    (hne : atoi (printNat d.rows.attrs.length) ≠ 0) :
    Keeps (fun s => d.OnlyFeeds s.db) (startServer plan conf) := by
  unfold startServer
  rw [hdelete, Bool.false_or]
  refine (keeps_initDb d).bind fun _ => (keeps_loadPlugins conf).bind fun _ =>
    Keeps.bind (fun s hs => ?_) fun _ => ?_
  · have hsame : s.db.rows.attrs = d.rows.attrs := by
      obtain ⟨_, _, _, h⟩ := hs
      rw [h]
    rw [left_setup, initDatabase_keeps (hsame ▸ hne)]
    exact hs
  · split_ifs
    · exact keeps_initDatabaseFeeds d conf.feeds
    · exact .pure _

end Starts

end JobProvenance
