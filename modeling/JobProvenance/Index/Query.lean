import JobProvenance.Common.QueryRec
import JobProvenance.Index.Database
import JobProvenance.Lib.Witness

/-!
# Queries for jobs

How the index server answers `QueryJobs`: the conditions of the request are
put together, as text, to one SQL query (`queryText`), which the database
evaluates (`getJobids`).
-/

namespace JobProvenance

/-! ## The request -/

/-- A comparison of a condition. -/
structure IndexQueryRecord where
  op : QueryOp
  value : Option StringOrBlob
  value2 : Option StringOrBlob
  deriving DecidableEq

/-- A condition: one of its records holds for the attribute. -/
structure IndexQuery where
  attr : Option Bytes
  origin : Option SoapAttrOrig
  record : List IndexQueryRecord
  deriving DecidableEq

/-- A request: the conditions, and the attributes that are asked for. -/
structure QueryJobs where
  conditions : List IndexQuery
  attributes : List (Option Bytes)

namespace IndexQuery

/-- The name of the attribute, where the source has dereferenced it. -/
def name (c : IndexQuery) : Bytes := c.attr.getD []

/-- Whether the condition is on the job identifier. -/
def onJobid (c : IndexQuery) : Bool := sameIgnoringCase c.name GLITE_JP_ATTR_JOBID

end IndexQuery

/-! ## The checks -/

/-- The names of the indexed attributes. -/
def indexedAttrs (db : IndexDb) : List Bytes :=
  (db.attrs.filter fun a => a.indexed = 1).map AttrsRow.name

/-- Whether a request is refused since it asks for no indexed attribute. -/
def checkIndexedConditions (db : IndexDb) (req : QueryJobs) : Bool :=
  !req.conditions.any fun c => (indexedAttrs db).any fun indexed =>
    match c.attr with
    | none => true
    | some attr => sameIgnoringCase attr GLITE_JP_ATTR_JOBID || sameIgnoringCase attr indexed

/-- Whether a request is refused since it has an attribute that is not known. -/
def checkConditions (conf : IndexConf) (req : QueryJobs) : Bool :=
  (req.conditions.map IndexQuery.attr ++ req.attributes).any fun attr =>
    attr.all fun attr => !conf.attrs.any fun known => sameIgnoringCase known attr

/-! ## The text of the query -/

section Text

variable (ctx : IndexContext)

/-- The operator in SQL. -/
def getOp : QueryOp → Option Bytes
  | .EQUAL => some (ascii "=")
  | .UNEQUAL => some (ascii "!=")
  | .GREATER => some (ascii ">")
  | .LESS => some (ascii "<")
  | .WITHIN => some (ascii "BETWEEN")
  | .EXISTS => none

/-- What a job identifier is compared with. -/
def getSqlStringvalue : Option StringOrBlob → Option Bytes
  | some (.string s) => some s
  | _ => none

/-- What the column of an attribute is compared with. -/
def getSqlIndexvalue (c : IndexQuery) : Option StringOrBlob → Option Bytes
  | some (.string s) => attrvalToDbIndex ctx.plugins
      { name := c.name, value := s, binary := false, size := 0, origin := soapToAttrOrig c.origin,
        originDetail := none, timestamp := 0 } GLITE_JPIS_INDEX_LENGTH
  | some (.blob bs) => attrvalToDbIndex ctx.plugins
      { name := c.name, value := bs, binary := true, size := bs.length,
        origin := soapToAttrOrig c.origin, originDetail := none, timestamp := 0 }
        GLITE_JPIS_INDEX_LENGTH
  | _ => none

/-- The column of a condition. -/
def sqlColumn (attrMd5 : Option Bytes) : Bytes :=
  match attrMd5 with
  | some id => ascii "attr_" ++ (ctx.quoting.quote (some id) ++ ascii ".value")
  | none => ascii "jobs.dg_jobid"

/-- The text of a comparison, and an error code. -/
def getSqlCond (attrMd5 : Option Bytes) (op : QueryOp) (value value2 : Option Bytes) :
    Ret × Option Bytes :=
  match getOp op with
  | none => (none, none)
  | some qop =>
    let sql := sqlColumn ctx attrMd5 ++ (ascii " " ++ (qop ++ (ascii " '" ++
      (ctx.quoting.quote value ++ ascii "'"))))
    if op = .WITHIN then
      if value = none then (some Errno.EINVAL, none)
      else (none, some (sql ++ (ascii " AND '" ++ (ctx.quoting.quote value2 ++ ascii "'"))))
    else (none, some sql)

/-- The text of a record that compares something; `none` where the source gives
    up. -/
def recordSql (c : IndexQuery) (attrMd5 : Option Bytes) (r : IndexQueryRecord) : Option Bytes :=
  if c.onJobid then
    match getSqlStringvalue r.value with
    | none => none
    | some value =>
      let (ret, cond) := getSqlCond ctx attrMd5 r.op (some value) (getSqlStringvalue r.value2)
      if ret = none then some (cond.getD nullText) else none
  else
    (getSqlCond ctx attrMd5 r.op (getSqlIndexvalue ctx c r.value)
      (getSqlIndexvalue ctx c r.value2)).2

/-- The records behind the text of those before them. -/
def getSqlOrFrom (c : IndexQuery) (attrMd5 : Option Bytes) :
    Bytes → List IndexQueryRecord → Exec (Option Bytes)
  | sql, [] => .ok (some sql)
  | sql, r :: rs =>
    if r.op = .EXISTS then getSqlOrFrom c attrMd5 sql rs
    else
      match recordSql ctx c attrMd5 r with
      | some cond =>
        getSqlOrFrom c attrMd5 (sql ++ ((if sql = [] then [] else ascii " OR ") ++ cond)) rs
      -- the text is freed under both of its names, unless it is the first one
      | none => if sql = [] then .ok none else .error .fault

/-- The text of the records of a condition, `none` being the null pointer. -/
def getSqlOr (c : IndexQuery) (attrMd5 : Option Bytes) : Exec (Option Bytes) :=
  getSqlOrFrom ctx c attrMd5 [] c.record

/-- The identifier of the attribute of a condition, if it is not on the job
    identifier. -/
def conditionId (c : IndexQuery) : Option Bytes :=
  if c.onJobid then none else some (attr2id ctx.md5 c.name)

/-- The text that joins the table of an attribute, with the origin asked for. -/
def joinSql (c : IndexQuery) (id : Bytes) : Bytes :=
  (match c.origin with
    | some orig => ascii "attr_" ++ (ctx.quoting.quote (some id) ++ (ascii ".origin = " ++
        (printNat (soapToAttrOrig (some orig)).toNat ++ ascii " AND ")))
    | none => []) ++
  (ascii "jobs.jobid = attr_" ++ (ctx.quoting.quote (some id) ++ ascii ".jobid"))

/-- The text of the condition at the index `i`. -/
def conditionSql (i : ℕ) (c : IndexQuery) : Exec Bytes := do
  let _ ← Exec.deref c.attr
  let qa := match conditionId ctx c with
    | none => []
    | some id => (if i = 0 then [] else ascii "AND ") ++ joinSql ctx c id
  match ← getSqlOr ctx c (conditionId ctx c) with
  -- the return value was never set
  | none => throw .fault
  | some qor =>
    if qor = [] then return qa
    else return qa ++ ((if qa = [] then [] else ascii " AND ") ++ (ascii "(" ++ (qor ++ ascii ")")))

/-- The tables of attributes, each once. -/
def addAttrTable (id : Bytes) (attrTables : List Bytes) : List Bytes :=
  if id ∈ attrTables then attrTables else attrTables ++ [id]

/-- The tables and the text of the conditions from the index `i` on, behind
    those before it. -/
def whereFrom : ℕ → List IndexQuery → List Bytes × Bytes → Exec (List Bytes × Bytes)
  | _, [], acc => .ok acc
  | i, c :: cs, (attrTables, qwhere) => do
    let qa ← conditionSql ctx i c
    whereFrom (i + 1) cs ((conditionId ctx c).elim attrTables (addAttrTable · attrTables),
      qwhere ++ ((if qa = [] then [] else ascii " ") ++ qa))

/-- The text of the query. -/
def queryText (conditions : List IndexQuery) : Exec Bytes := do
  let (attrTables, qwhere) ← whereFrom ctx 0 conditions ([], [])
  let qa := attrTables.flatMap fun id => ascii ", attr_" ++ id
  if ctx.conf.noAuth then
    return ascii "SELECT DISTINCT dg_jobid,ps FROM jobs" ++ (qa ++ (ascii " WHERE" ++ qwhere))
  else
    return ascii "SELECT DISTINCT dg_jobid,ps FROM jobs,users" ++ (qa ++
      (ascii " WHERE (jobs.ownerid = users.userid AND users.cert_subj='" ++
        (ctx.peer.getD nullText ++ (ascii "') AND" ++ qwhere))))

end Text

/-- A job and its primary storage, as the two columns of a row of the result. -/
def fetchJob : List Sql.Value → Option (Bytes × Bytes)
  | [.str jobid, .str ps] => some (jobid, ps)
  | _ => none

theorem fetchJob_eq_some {vs : List Sql.Value} {jobid ps : Bytes} :
    fetchJob vs = some (jobid, ps) ↔ vs = [.str jobid, .str ps] := by
  unfold fetchJob
  split <;> simp_all

/-- The jobs that meet the conditions, with their primary storage. -/
def getJobids (ctx : IndexContext) (db : IndexDb) (conditions : List IndexQuery) :
    Exec (List (Bytes × Bytes)) := do
  let query ← queryText ctx conditions
  match Sql.parse query with
  -- the database refuses the query
  | none => throw (.errno Errno.EIO)
  | some q => return (q.eval ctx.coll db.toSql).filterMap fetchJob

/-! ## Two conditions -/

/-- That the attribute of users is red. -/
def colorCondition : IndexQuery where
  attr := some sampleAttr
  origin := none
  record := [⟨.EQUAL, some (.string (ascii "red")), none⟩]

/-- That the job is a given one. -/
def jobidCondition : IndexQuery where
  attr := some GLITE_JP_ATTR_JOBID
  origin := none
  record := [⟨.EQUAL, some (.string (ascii "https://lb/job")), none⟩]

end JobProvenance
