import JobProvenance.Index.Update
import JobProvenance.Lib.Stateful

/-!
# The tables the index server creates

A server that finds no attributes in its database creates a table of values for
each attribute of its configuration, and then the table of the jobs, with a
column for each attribute that has one value at most and may be queried for. The
statements are printed into a buffer of `SQL_SIZE` bytes; that of the table of
the jobs piece by piece, and what has no room left is not printed.

`SetupDb` is what answers, and the state of `initDatabase` is what has been asked
so far (`SetupCall`). `jobsTable` is the statement without the buffer; what is
executed is its start (`jobsSql`). It is executed when the list of the attributes
with an index can be read, which has no array when none is configured; it is then
all of the statement when, and only when, it fits (`createsComplete_iff`).
-/

namespace JobProvenance

/-! ## The texts of types -/

/-- The texts of the types of columns in a type plugin, if it has them. -/
structure TplugTypes where
  ns : Bytes
  dbTypeFull : Option (Bytes → Bytes)
  dbTypeIndex : Option (Bytes → ℕ → Bytes)

/-- The plugin of an attribute; `none` is the fallback plugin. -/
def getTypes (plugins : List TplugTypes) (attr : Bytes) : Option TplugTypes :=
  plugins.find? fun p => nameSpace attr = p.ns

def fbTypeFull (_attr : Bytes) : Bytes := ascii "mediumblob"

def fbTypeIndex (_attr : Bytes) (len : ℕ) : Bytes :=
  ascii "varchar(" ++ printNat len ++ ascii ")"

/-- The type of the full text of an attribute, by its plugin. -/
def attrvalDbTypeFull (plugins : List TplugTypes) (attr : Bytes) : Bytes :=
  (((getTypes plugins attr).bind TplugTypes.dbTypeFull).getD fbTypeFull) attr

/-- The type of the column of an attribute, by its plugin. -/
def attrvalDbTypeIndex (plugins : List TplugTypes) (attr : Bytes) (len : ℕ) : Bytes :=
  (((getTypes plugins attr).bind TplugTypes.dbTypeIndex).getD fbTypeIndex) attr len

/-! ## The statements -/

/-- What the server creates its tables from. The list of the attributes with an index has no
    array when it is empty; the lists of `IndexConf` have theirs as soon as there are
    attributes. -/
structure SchemaConf extends IndexConf where
  indexedAttrs : List Bytes
  plugins : List TplugTypes
  md5 : Bytes → Bytes

/-- What `initDatabase` ends early with: an error that it reports, or it leaves the
    language. -/
inductive SetupError
  | failed (code : ℕ) (desc : Bytes)
  | fault

def SetupError.EIO : ℕ := 5
def SetupError.EAGAIN : ℕ := 11

variable (conf : SchemaConf) (attr : Bytes)

/-- Whether an attribute is among those with an index. -/
def indexed : Bool := findAttr conf.indexedAttrs attr

/-- Looks an attribute up among those with an index, where there is an array of them. -/
def isIndexed : Except SetupError Bool :=
  if conf.indexedAttrs = [] then .error .fault else .ok (indexed conf attr)

def dropDataTable (attrid : Bytes) : Bytes := ascii "DROP TABLE attr_" ++ attrid

def createDataTable (attrid typeIndex typeFull : Bytes) : Bytes :=
  ascii "CREATE TABLE attr_" ++ (attrid ++ ascii " (\n" ++
  ascii "        `jobid`          CHAR(32)    NOT NULL,\n" ++
  ascii "        `value`          " ++ typeIndex ++ ascii "          NOT NULL,\n" ++
  ascii "        `full_value`     " ++ typeFull ++ ascii "          NOT NULL,\n" ++
  ascii "        `origin`         INT         NOT NULL,\n\n" ++
  ascii "        INDEX (jobid),\n" ++
  ascii "        INDEX (value)\n" ++
  ascii ") CHARACTER SET utf8 COLLATE utf8_bin ENGINE=innodb;")

def createJobsTableBegin : Bytes :=
  ascii "CREATE TABLE jobs (\n" ++
  ascii "\t`jobid`         char(32)        NOT NULL,\n" ++
  ascii "        `dg_jobid`        varchar(255)    NOT NULL,\n" ++
  ascii "        `ownerid`         char(32)        NOT NULL,\n" ++
  ascii "        `aclid`           char(32)        NOT NULL,\n" ++
  ascii "        `ps`            varchar(255)    NOT NULL,\n"

def createJobsTableEnd : Bytes :=
  ascii "\tprimary key (jobid),\n" ++
  ascii "        unique (dg_jobid),\n" ++
  ascii "        index (jobid),\n" ++
  ascii "        index (dg_jobid)\n" ++
  ascii ") character set utf8 collate utf8_bin engine=innodb;"

/-- The column of an attribute. -/
def jobsColumn : Bytes :=
  ascii "\t`attr_" ++ attr2id conf.md5 attr ++ ascii "`\t" ++
    attrvalDbTypeIndex conf.plugins attr GLITE_JPIS_INDEX_LENGTH ++ ascii "\tNOT NULL,\n"

/-- The index of the column of an attribute. -/
def jobsIndex : Bytes := ascii "\tindex (attr_" ++ attr2id conf.md5 attr ++ ascii "), \n"

/-- What the jobs have for an attribute. -/
def jobsEntry : Bytes :=
  jobsColumn conf attr ++ if indexed conf attr then jobsIndex conf attr else []

/-- The whole statement that creates the table of the jobs. -/
def jobsTable : Bytes :=
  createJobsTableBegin ++
    (conf.attrs.filter (hasColumn conf.toIndexConf)).flatMap (jobsEntry conf) ++
    createJobsTableEnd

/-! ## Printing them -/

/-- The size of the buffer. -/
def SQL_SIZE : ℕ := 2048

/-- Prints what the jobs have for an attribute. -/
def appendJobsColumn (sql attr : Bytes) : Except SetupError Bytes :=
  if hasColumn conf.toIndexConf attr then do
    let sql := snprintfAt SQL_SIZE sql (jobsColumn conf attr)
    if ← isIndexed conf attr then return snprintfAt SQL_SIZE sql (jobsIndex conf attr)
    else return sql
  else .ok sql

/-- The statement that is executed. -/
def createJobsSql : Except SetupError Bytes := do
  let sql := snprintf (SQL_SIZE - 1) createJobsTableBegin
  let sql ← conf.attrs.foldlM (appendJobsColumn conf) sql
  return snprintfAt SQL_SIZE sql createJobsTableEnd

/-- What the buffer holds of the whole statement. -/
def jobsSql : Bytes := snprintf SQL_SIZE (jobsTable conf)

/-- There is an array of the attributes with an index, as soon as there are attributes. -/
def ListsIndexes : Prop := conf.attrs ≠ [] → conf.indexedAttrs ≠ []

theorem isIndexed_of_ne_nil (h : conf.indexedAttrs ≠ []) :
    isIndexed conf attr = .ok (indexed conf attr) := if_neg h

/-- What is printed for an attribute goes behind what is printed already. -/
theorem appendJobsColumn_snprintf (h : conf.indexedAttrs ≠ []) (sql : Bytes) :
    appendJobsColumn conf (snprintf SQL_SIZE sql) attr = .ok (snprintf SQL_SIZE (sql ++
      if hasColumn conf.toIndexConf attr then jobsEntry conf attr else [])) := by
  rw [appendJobsColumn, isIndexed_of_ne_nil conf attr h, jobsEntry]
  split_ifs with hcol hindexed
  · rw [hindexed, ← List.append_assoc, ← snprintfAt_snprintf, ← snprintfAt_snprintf]
    rfl
  · rw [Bool.not_eq_true] at hindexed
    rw [hindexed, List.append_nil, ← snprintfAt_snprintf]
    rfl
  · rw [List.append_nil]

theorem foldlM_appendJobsColumn (h : conf.indexedAttrs ≠ []) (attrs : List Bytes) (sql : Bytes) :
    attrs.foldlM (appendJobsColumn conf) (snprintf SQL_SIZE sql) = .ok (snprintf SQL_SIZE (sql ++
      (attrs.filter (hasColumn conf.toIndexConf)).flatMap (jobsEntry conf))) := by
  induction attrs generalizing sql with
  | nil =>
    rw [List.filter_nil, List.flatMap_nil, List.append_nil]
    rfl
  | cons attr attrs ih =>
    have hfirst := appendJobsColumn_snprintf conf attr h sql
    rw [List.foldlM_cons, hfirst]
    refine (ih _).trans ?_
    rw [List.append_assoc]
    by_cases hcol : hasColumn conf.toIndexConf attr = true
    · rw [if_pos hcol, List.filter_cons_of_pos hcol, List.flatMap_cons]
    · rw [if_neg hcol, List.filter_cons_of_neg hcol, List.nil_append]

theorem length_createJobsTableBegin : createJobsTableBegin.length = 269 := by
  have h₁ : (ascii "CREATE TABLE jobs (\n").length = 20 := by decide
  have h₂ : (ascii "\t`jobid`         char(32)        NOT NULL,\n").length = 43 := by
    decide +kernel
  have h₃ : (ascii "        `dg_jobid`        varchar(255)    NOT NULL,\n").length = 52 := by
    decide +kernel
  have h₄ : (ascii "        `ownerid`         char(32)        NOT NULL,\n").length = 52 := by
    decide +kernel
  have h₅ : (ascii "        `aclid`           char(32)        NOT NULL,\n").length = 52 := by
    decide +kernel
  have h₆ : (ascii "        `ps`            varchar(255)    NOT NULL,\n").length = 50 := by
    decide +kernel
  simp only [createJobsTableBegin, List.length_append, h₁, h₂, h₃, h₄, h₅, h₆]

/-- What is executed is what the buffer holds of the whole statement. -/
theorem createJobsSql_eq (h : ListsIndexes conf) : createJobsSql conf = .ok (jobsSql conf) := by
  have hbegin : ∀ size, 269 < size →
      snprintf size createJobsTableBegin = createJobsTableBegin := fun size h =>
    (snprintf_eq_self_iff (Nat.zero_lt_of_lt h)).2 (length_createJobsTableBegin ▸ h)
  have hcolumns : conf.attrs.foldlM (appendJobsColumn conf)
      (snprintf SQL_SIZE createJobsTableBegin) = .ok (snprintf SQL_SIZE (createJobsTableBegin ++
        (conf.attrs.filter (hasColumn conf.toIndexConf)).flatMap (jobsEntry conf))) := by
    by_cases hattrs : conf.attrs = []
    · rw [hattrs, List.filter_nil, List.flatMap_nil, List.append_nil]
      rfl
    · exact foldlM_appendJobsColumn conf (h hattrs) _ _
  rw [createJobsSql, hbegin (SQL_SIZE - 1) (by decide), ← hbegin SQL_SIZE (by decide), hcolumns]
  exact congrArg Except.ok (snprintfAt_snprintf _ _ _)

/-! ## Creating the tables -/

/-- A call of the database. -/
inductive SetupCall
  | execSQL (sql : Bytes)
  | fetchRow
  | prepareStmt (sql : Bytes)
  | execPreparedStmt (attrid name : Bytes) (indexed : Bool) (type : Bytes)

/-- What the database answers to a call, after those made before: `none` when it
    fails, and the value of the row when there is one to fetch. -/
abbrev SetupDb := List SetupCall → SetupCall → Option Bytes

/-- Creating the tables: the state are the calls made so far. -/
abbrev Setup (α : Type) := EStateM SetupError (List SetupCall) α

variable (db : SetupDb)

/-- Makes a call. -/
def ask (c : SetupCall) : Setup (Option Bytes) := fun calls => .ok (db calls c) (calls ++ [c])

/-- Makes a call that must not fail. -/
def demand (c : SetupCall) (code : ℕ) (desc : Bytes) : Setup Bytes := do
  match ← ask db c with
  | some answer => return answer
  | none => throw (.failed code desc)

/-- Creates the table of the values of an attribute. -/
def initAttr : Setup Unit := do
  let typeFull := attrvalDbTypeFull conf.plugins attr
  let typeIndex := attrvalDbTypeIndex conf.plugins attr GLITE_JPIS_INDEX_LENGTH
  let attrid := attr2id conf.md5 attr
  let indexed ← isIndexed conf attr
  let _ ← demand db (.execPreparedStmt attrid attr indexed typeFull) SetupError.EIO
    (ascii "can't create '" ++ attr ++ ascii "' attribute")
  -- whether there was such a table does not matter
  let _ ← ask db (.execSQL (snprintf SQL_SIZE (dropDataTable attrid)))
  let _ ← demand db
    (.execSQL (snprintf (SQL_SIZE - 1) (createDataTable attrid typeIndex typeFull)))
    SetupError.EAGAIN (ascii "if the atribute table already exists, restart may help")

/-- The query for the number of attributes in the database. -/
def countAttrs : SetupCall := .execSQL (ascii "SELECT COUNT(*) FROM attrs")

/-- Creates the tables, unless there are attributes in the database already. -/
def initDatabase : Setup Unit := do
  let _ ← demand db countAttrs SetupError.EIO (ascii "error during counting attrs")
  let num ← demand db .fetchRow SetupError.EIO (ascii "error during fetching attrs")
  if atoi num ≠ 0 then return
  let _ ← demand db
    (.prepareStmt (ascii "INSERT INTO attrs (attrid, name, indexed, type) VALUES (?, ?, ?, ?)"))
    SetupError.EIO (ascii "can't create insert attributes statement")
  conf.attrs.forM (initAttr conf · db)
  let sql ← createJobsSql conf
  let _ ← demand db (.execSQL sql) SetupError.EAGAIN
    (ascii "Cannot create table 'jobs'!")

/-- Whether the server finds attributes in the database. -/
def FoundAttrs : Prop := ∃ num, db [countAttrs] .fetchRow = some num ∧ atoi num ≠ 0

/-- Whether a call creates the table of the jobs. -/
def SetupCall.CreatesJobs : SetupCall → Prop
  | .execSQL sql => ascii "CREATE TABLE jobs" <+: sql
  | _ => False

/-- The table of the jobs is created completely: whatever the database answers, the
    server does not leave the language, a statement that creates the table is the
    whole one, and one is executed when nothing fails and no attributes were found. -/
def CreatesComplete : Prop :=
  ∀ db : SetupDb,
    Stateful.error? (initDatabase conf db []) ≠ some .fault ∧
    (∀ c ∈ Stateful.left (initDatabase conf db []), c.CreatesJobs →
      c = .execSQL (jobsTable conf)) ∧
    ∀ calls, initDatabase conf db [] = .ok () calls → ¬FoundAttrs db →
      .execSQL (jobsTable conf) ∈ calls

/-! ## What is executed -/

/-- A text that starts otherwise does not create the table of the jobs, printed
    into a buffer of any size. -/
theorem not_createsJobs {start : Bytes} (h : ¬start <+: ascii "CREATE TABLE jobs")
    (h' : ¬ascii "CREATE TABLE jobs" <+: start) (size : ℕ) (rest : Bytes) :
    ¬(SetupCall.execSQL (snprintf size (start ++ rest))).CreatesJobs := fun hp =>
  (List.prefix_or_prefix_of_prefix (hp.trans (List.take_prefix _ _))
    (List.prefix_append start rest)).elim h' h

/-- The statement does create the table, whatever is left of its end. -/
theorem createsJobs_jobsSql : (SetupCall.execSQL (jobsSql conf)).CreatesJobs := by
  have hbegin : ascii "CREATE TABLE jobs" <+: ascii "CREATE TABLE jobs (\n" := by decide
  refine List.prefix_take_iff.2 ⟨hbegin.trans ?_, by decide⟩
  rw [jobsTable, createJobsTableBegin]
  simp only [List.append_assoc]
  exact List.prefix_append _ _

/-- The calls that create the table of the jobs execute the one statement. -/
def OnlyJobsSql (calls : List SetupCall) : Prop :=
  ∀ c ∈ calls, c.CreatesJobs → c = .execSQL (jobsSql conf)

section Keeps

variable {conf db} {c : SetupCall}

theorem keeps_ask (h : c.CreatesJobs → c = .execSQL (jobsSql conf)) :
    Stateful.Keeps (OnlyJobsSql conf) (ask db c) := fun _ hcalls =>
  List.forall_mem_append.2 ⟨hcalls, List.forall_mem_singleton.2 h⟩

theorem keeps_demand (h : c.CreatesJobs → c = .execSQL (jobsSql conf)) (code : ℕ)
    (desc : Bytes) : Stateful.Keeps (OnlyJobsSql conf) (demand db c code desc) :=
  (keeps_ask h).bind fun answer => by
    cases answer with
    | some a => exact .pure a
    | none => exact .throw _

theorem keeps_initAttr : Stateful.Keeps (OnlyJobsSql conf) (initAttr conf attr db) := by
  refine (Stateful.Keeps.liftM _).bind fun _ => (keeps_demand False.elim _ _).bind fun _ =>
    (keeps_ask fun h => ?_).bind fun _ => (keeps_demand (fun h => ?_) _ _).bind fun _ => .pure _
  · exact absurd h (not_createsJobs (by decide) (by decide) _ _)
  · exact absurd h (not_createsJobs (by decide) (by decide) _ _)

theorem keeps_initDatabase (hlists : ListsIndexes conf) :
    Stateful.Keeps (OnlyJobsSql conf) (initDatabase conf db) := by
  have hcount : ¬countAttrs.CreatesJobs := fun h =>
    absurd (List.isPrefixOf_iff_prefix.2 h) (by decide)
  refine (keeps_demand (fun h => absurd h hcount) _ _).bind fun _ =>
    (keeps_demand False.elim _ _).bind fun num => ?_
  split_ifs with hnum
  · exact .pure _
  · refine (keeps_demand False.elim _ _).bind fun _ =>
      (Stateful.Keeps.forM (fun attr => keeps_initAttr attr) _).bind fun _ =>
        Stateful.Keeps.liftM_bind fun sql hsql => ?_
    rw [createJobsSql_eq conf hlists] at hsql
    obtain rfl := Except.ok.inj hsql
    exact (keeps_demand (fun _ => rfl) _ _).bind fun _ => .pure _

theorem avoids_ask : Stateful.Avoids SetupError.fault (ask db c) := fun _ _ h => by cases h

theorem avoids_demand (code : ℕ) (desc : Bytes) :
    Stateful.Avoids SetupError.fault (demand db c code desc) :=
  avoids_ask.bind fun answer => by
    cases answer with
    | some a => exact .pure a
    | none => exact .throw fun h => by cases h

/-- Where the list of the attributes with an index can be read, the server does not leave the
    language. -/
theorem avoids_initDatabase (hlists : ListsIndexes conf) :
    Stateful.Avoids SetupError.fault (initDatabase conf db) := by
  refine (avoids_demand _ _).bind fun _ => (avoids_demand _ _).bind fun num => ?_
  split_ifs with hnum
  · exact .pure _
  · refine (avoids_demand _ _).bind fun _ =>
      (Stateful.Avoids.forM_mem fun attr hattr => ?_).bind fun _ => ?_
    · rw [initAttr, isIndexed_of_ne_nil conf attr (hlists (List.ne_nil_of_mem hattr))]
      exact (Stateful.Avoids.ok _).bind fun _ => (avoids_demand _ _).bind fun _ =>
        avoids_ask.bind fun _ => (avoids_demand _ _).bind fun _ => .pure _
    · rw [createJobsSql_eq conf hlists]
      exact (Stateful.Avoids.ok _).bind fun _ => (avoids_demand _ _).bind fun _ => .pure _

end Keeps

/-- A call that does not fail has been made, and nothing else. -/
theorem demand_eq_ok {c : SetupCall} {code : ℕ} {desc answer : Bytes}
    {calls calls' : List SetupCall} (h : demand db c code desc calls = .ok answer calls') :
    db calls c = some answer ∧ calls' = calls ++ [c] := by
  obtain ⟨a, t, hask, h⟩ := Stateful.bind_eq_ok.1 h
  obtain ⟨rfl, rfl⟩ := EStateM.Result.ok.inj hask
  cases hdb : db calls c with
  | none => rw [hdb] at h; cases h
  | some a =>
    rw [hdb] at h
    obtain ⟨rfl, rfl⟩ := EStateM.Result.ok.inj h
    exact ⟨rfl, rfl⟩

/-- An attribute was looked up among those with an index. -/
theorem initAttr_indexed {calls calls' : List SetupCall}
    (h : initAttr conf attr db calls = .ok () calls') : conf.indexedAttrs ≠ [] := by
  obtain ⟨_, _, hindexed, -⟩ := Stateful.bind_eq_ok.1 h
  rintro hnil
  rw [isIndexed, if_pos hnil] at hindexed
  cases hindexed

theorem listsIndexes_of_initAttrs {calls calls' : List SetupCall}
    (h : conf.attrs.forM (initAttr conf · db) calls = .ok () calls') : ListsIndexes conf := by
  intro hne
  obtain ⟨attr, attrs, hattrs⟩ := List.exists_cons_of_ne_nil hne
  rw [hattrs] at h
  obtain ⟨_, _, hattr, -⟩ := Stateful.bind_eq_ok.1 h
  exact initAttr_indexed conf attr db hattr

/-- A server that found no attributes and did not fail has executed the statement. -/
theorem jobsSql_mem {calls : List SetupCall} (h : initDatabase conf db [] = .ok () calls)
    (hfound : ¬FoundAttrs db) : .execSQL (jobsSql conf) ∈ calls := by
  obtain ⟨_, t, hcount, h⟩ := Stateful.bind_eq_ok.1 h
  obtain ⟨num, u, hfetch, h⟩ := Stateful.bind_eq_ok.1 h
  obtain ⟨-, rfl⟩ := demand_eq_ok db hcount
  obtain ⟨hnum, rfl⟩ := demand_eq_ok db hfetch
  rw [if_neg fun hne => hfound ⟨num, hnum, hne⟩] at h
  obtain ⟨_, v, -, h⟩ := Stateful.bind_eq_ok.1 h
  obtain ⟨_, w, hattrs, h⟩ := Stateful.bind_eq_ok.1 h
  rw [createJobsSql_eq conf (listsIndexes_of_initAttrs conf db hattrs)] at h
  obtain ⟨_, x, hjobs, h⟩ := Stateful.bind_eq_ok.1 ((Stateful.liftM_bind _ _ _).symm.trans h)
  obtain ⟨-, rfl⟩ := demand_eq_ok db hjobs
  obtain ⟨-, rfl⟩ := EStateM.Result.ok.inj h
  exact List.mem_append_right _ (List.mem_singleton_self _)

/-- A database that is empty and never fails. -/
def emptyDb : SetupDb := fun _ _ => some (ascii "0")

theorem not_foundAttrs_emptyDb : ¬FoundAttrs emptyDb := by
  rintro ⟨num, hnum, hne⟩
  obtain rfl := Option.some.inj hnum
  exact hne (by decide)

theorem demand_emptyDb (c : SetupCall) (code : ℕ) (desc : Bytes) (calls : List SetupCall) :
    demand emptyDb c code desc calls = .ok (ascii "0") (calls ++ [c]) := rfl

theorem initAttrs_emptyDb (h : conf.indexedAttrs ≠ []) (attrs : List Bytes)
    (calls : List SetupCall) :
    ∃ calls', attrs.forM (initAttr conf · emptyDb) calls = .ok () calls' := by
  induction attrs generalizing calls with
  | nil => exact ⟨calls, rfl⟩
  | cons attr attrs ih =>
    have hattr : ∃ t, initAttr conf attr emptyDb calls = .ok () t := by
      rw [initAttr, isIndexed_of_ne_nil conf attr h]
      exact ⟨_, rfl⟩
    obtain ⟨t, hattr⟩ := hattr
    obtain ⟨calls', h⟩ := ih t
    exact ⟨calls', (Stateful.bind_of_ok hattr).trans h⟩

/-- On such a database the server comes to the attributes. -/
theorem initDatabase_emptyDb : ∃ calls, initDatabase conf emptyDb [] =
    (conf.attrs.forM (initAttr conf · emptyDb) >>= fun _ => do
      let sql ← createJobsSql conf
      let _ ← demand emptyDb (.execSQL sql) SetupError.EAGAIN
        (ascii "Cannot create table 'jobs'!")) calls := by
  have hnum : ¬atoi (ascii "0") ≠ 0 := by decide
  refine ⟨[countAttrs, .fetchRow, .prepareStmt
    (ascii "INSERT INTO attrs (attrid, name, indexed, type) VALUES (?, ?, ?, ?)")], ?_⟩
  rw [initDatabase]
  refine (Stateful.bind_of_ok (demand_emptyDb ..)).trans
    ((Stateful.bind_of_ok (demand_emptyDb ..)).trans ?_)
  rw [if_neg hnum]
  exact Stateful.bind_of_ok (demand_emptyDb ..)

/-- On such a database nothing fails, where the list of the attributes with an index can be
    read. -/
theorem initDatabase_emptyDb_eq_ok (hlists : ListsIndexes conf) :
    ∃ calls, initDatabase conf emptyDb [] = .ok () calls := by
  obtain ⟨calls, hrun⟩ := initDatabase_emptyDb conf
  have hattrs : ∃ calls', conf.attrs.forM (initAttr conf · emptyDb) calls = .ok () calls' := by
    by_cases hattrs : conf.attrs = []
    · rw [hattrs]
      exact ⟨calls, rfl⟩
    · exact initAttrs_emptyDb conf (hlists hattrs) _ _
  obtain ⟨calls', hattrs⟩ := hattrs
  rw [hrun, createJobsSql_eq conf hlists]
  exact ⟨_, (Stateful.bind_of_ok hattrs).trans rfl⟩

/-- A server whose tables are created completely does not read a list that has no array. -/
theorem listsIndexes_of_createsComplete (h : CreatesComplete conf) : ListsIndexes conf := by
  intro hne hnil
  obtain ⟨attr, attrs, hattrs⟩ := List.exists_cons_of_ne_nil hne
  obtain ⟨calls, hrun⟩ := initDatabase_emptyDb conf
  have hattr : initAttr conf attr emptyDb calls = .error .fault calls := by
    rw [initAttr, isIndexed, if_pos hnil]
    rfl
  refine (h emptyDb).1 ?_
  rw [hrun, hattrs]
  exact congrArg Stateful.error? (Stateful.bind_of_error (Stateful.bind_of_error hattr))

/-- A table that is created completely has a statement that fits: the one that is
    executed on an empty database is the whole one. -/
theorem length_jobsTable_of_createsComplete (h : CreatesComplete conf) :
    (jobsTable conf).length < SQL_SIZE := by
  obtain ⟨calls, hrun⟩ :=
    initDatabase_emptyDb_eq_ok conf (listsIndexes_of_createsComplete conf h)
  have hmem : .execSQL (jobsSql conf) ∈ Stateful.left (initDatabase conf emptyDb []) := by
    rw [hrun]
    exact jobsSql_mem conf emptyDb hrun not_foundAttrs_emptyDb
  have heq : jobsSql conf = jobsTable conf :=
    SetupCall.execSQL.inj ((h emptyDb).2.1 _ hmem (createsJobs_jobsSql conf))
  rwa [jobsSql, snprintf_eq_self_iff (by decide)] at heq

/-- The table of the jobs is created completely when its statement fits into the
    buffer and an attribute with an index is configured, if any are, and only then. -/
theorem createsComplete_iff :
    CreatesComplete conf ↔ ListsIndexes conf ∧ (jobsTable conf).length < SQL_SIZE := by
  refine ⟨fun h => ⟨listsIndexes_of_createsComplete conf h,
    length_jobsTable_of_createsComplete conf h⟩, fun ⟨hlists, hlen⟩ db => ?_⟩
  have heq : jobsSql conf = jobsTable conf := (snprintf_eq_self_iff (by decide)).2 hlen
  rw [← heq]
  exact ⟨(avoids_initDatabase hlists).error?_ne [],
    keeps_initDatabase hlists [] (List.forall_mem_nil _),
    fun calls hrun hfound => jobsSql_mem conf db hrun hfound⟩

theorem length_jobsColumn : (jobsColumn conf attr).length =
    20 + (attr2id conf.md5 attr).length +
      (attrvalDbTypeIndex conf.plugins attr GLITE_JPIS_INDEX_LENGTH).length := by
  have h₁ : (ascii "\t`attr_").length = 7 := by decide
  have h₂ : (ascii "`\t").length = 2 := by decide
  have h₃ : (ascii "\tNOT NULL,\n").length = 11 := by decide
  simp only [jobsColumn, List.length_append, h₁, h₂, h₃]
  omega

/-- The columns alone are at least as long as their number times the shortest one. -/
theorem le_length_jobsTable {n : ℕ}
    (h : ∀ attr ∈ conf.attrs, hasColumn conf.toIndexConf attr = true ∧
      n ≤ (jobsColumn conf attr).length) :
    conf.attrs.length * n ≤ (jobsTable conf).length := by
  have hcols : conf.attrs.filter (hasColumn conf.toIndexConf) = conf.attrs :=
    List.filter_eq_self.2 fun attr hattr => (h attr hattr).1
  have hle : ∀ l ∈ conf.attrs.map fun attr => (jobsEntry conf attr).length, n ≤ l := by
    intro l hl
    obtain ⟨attr, hattr, rfl⟩ := List.mem_map.1 hl
    rw [jobsEntry, List.length_append]
    exact (h attr hattr).2.trans (Nat.le_add_right _ _)
  have hsum := List.card_nsmul_le_sum _ n hle
  rw [List.length_map, smul_eq_mul] at hsum
  rw [jobsTable, hcols, List.length_append, List.length_append, List.length_flatMap]
  omega

/-- Identifiers of names that end in three digits: these, and zeros in front. -/
def numberId (name : Bytes) : Bytes :=
  List.replicate 29 (ch '0') ++ name.drop (name.length - 3)

/-- A configuration with a number of attributes of users, each with one value at
    most and queriable, the first of them with an index. -/
def manyAttrs (n : ℕ) : SchemaConf where
  attrs := (List.range n).map fun i => ascii "urn:app:" ++ printNat (100 + i)
  multivalAttrs := []
  queriableAttrs := (List.range n).map fun i => ascii "urn:app:" ++ printNat (100 + i)
  noAuth := false
  indexedAttrs := [ascii "urn:app:100"]
  plugins := []
  md5 := numberId

/-- Each attribute takes 64 bytes. -/
theorem length_jobsColumn_manyAttrs {n : ℕ} {attr : Bytes} (h : attr ∈ (manyAttrs n).attrs) :
    hasColumn (manyAttrs n).toIndexConf attr = true ∧
      64 ≤ (jobsColumn (manyAttrs n) attr).length := by
  have htype : (attrvalDbTypeIndex [] attr GLITE_JPIS_INDEX_LENGTH).length = 12 := by
    change (ascii "varchar(" ++ printNat 255 ++ ascii ")").length = 12
    decide
  have hname : 3 ≤ attr.length := by
    obtain ⟨i, -, rfl⟩ := List.mem_map.1 h
    rw [List.length_append]
    exact le_add_right (by decide)
  refine ⟨?_, ?_⟩
  · rw [hasColumn, Bool.and_eq_true]
    exact ⟨rfl, List.any_eq_true.2 ⟨attr, h, by simp [sameIgnoringCase]⟩⟩
  · rw [length_jobsColumn]
    change 64 ≤ 20 + (numberId (attr.map tolower)).length +
      (attrvalDbTypeIndex [] attr GLITE_JPIS_INDEX_LENGTH).length
    rw [htype, numberId, List.length_append, List.length_replicate, List.length_drop,
      List.length_map]
    omega

/-- The statement for 32 attributes does not fit. -/
theorem not_createsComplete_manyAttrs : ¬CreatesComplete (manyAttrs 32) := by
  intro h
  have hlt := length_jobsTable_of_createsComplete _ h
  have hle := le_length_jobsTable (manyAttrs 32) fun _ => length_jobsColumn_manyAttrs
  rw [manyAttrs, List.length_map, List.length_range] at hle
  exact absurd (hle.trans_lt hlt) (by decide)

end JobProvenance
