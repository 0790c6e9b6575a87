import JobProvenance.Lib.Sql
import JobProvenance.Common.Schema
import JobProvenance.Common.Soap
import JobProvenance.Common.TypePlugin

/-!
# The database of the index server

The tables of the index server: the jobs, with a column for each queriable
attribute that has a single value, their owners, the feeds, the attributes the
server knows, and, for each of them, a table of its values. What is declared
unique is the relation a `Table` is made over; the tables of values have no key
(`AttrRow`).

`IndexDb.toSql` is the database as the queries read it.
-/

namespace JobProvenance

/-- A row of the table `jobs`: the identifier is the hash of the job's, and the
    columns of attributes are by the identifiers of these. -/
structure IndexJob where
  jobid : Bytes
  dgJobid : Bytes
  ownerid : Bytes
  ps : Bytes
  columns : List (Bytes × Bytes)
  deriving DecidableEq

/-- The keys of `jobs`. -/
def IndexJob.Clash (a b : IndexJob) : Prop := a.jobid = b.jobid ∨ a.dgJobid = b.dgJobid

instance : DecidableRel IndexJob.Clash := fun _ _ => inferInstanceAs (Decidable (_ ∨ _))

/-- A row of the table `feeds`. -/
structure FeedRow where
  uniqueid : ℕ
  feedid : Option Bytes
  state : ℕ
  locked : ℕ
  source : Bytes
  expires : Option ℤ
  deriving DecidableEq

/-- The keys of `feeds`; any number of feeds may have no identifier. -/
def FeedRow.Clash (a b : FeedRow) : Prop :=
  a.uniqueid = b.uniqueid ∨ a.feedid ≠ none ∧ a.feedid = b.feedid

instance : DecidableRel FeedRow.Clash := fun _ _ => inferInstanceAs (Decidable (_ ∨ _))

instance : Std.Symm FeedRow.Clash where
  symm a b h := by
    rcases h with h | ⟨hne, h⟩
    · exact .inl h.symm
    · exact .inr ⟨h ▸ hne, h.symm⟩

/-- A row of the table `attrs`. -/
structure AttrsRow where
  attrid : Bytes
  name : Bytes
  indexed : ℤ
  deriving DecidableEq

/-- A row of the table of the values of an attribute. -/
structure AttrRow where
  jobid : Bytes
  value : Bytes
  fullValue : Bytes
  origin : ℤ
  deriving DecidableEq

/-- The database: `values` are the tables of the attributes, by identifier. -/
structure IndexDb where
  jobs : Table IndexJob IndexJob.Clash
  users : Table UserRow UserRow.Clash
  feeds : Table FeedRow FeedRow.Clash
  attrs : List AttrsRow
  values : Bytes → List AttrRow

/-- The number of an origin, its place in the enumeration. -/
def AttrOrig.toNat : AttrOrig → ℕ
  | .any => 0
  | .system => 1
  | .user => 2
  | .file => 3

/-- The configuration of the index server. -/
structure IndexConf where
  attrs : List Bytes
  multivalAttrs : List Bytes
  queriableAttrs : List Bytes
  noAuth : Bool

/-- Whether a list of attributes has one, up to case. -/
def findAttr (attrs : List Bytes) (attr : Bytes) : Bool := attrs.any (sameIgnoringCase attr)

/-- The configuration, what is known of the client, and what the server uses of
    its libraries. -/
structure IndexContext where
  conf : IndexConf
  peer : Option Bytes
  plugins : List TplugData
  b64 : Base64
  md5 : Bytes → Bytes
  isMd5 : IsMd5 md5
  quoting : Sql.Quoting
  coll : Sql.Collation

/-- The length of the text of an attribute's column. -/
def GLITE_JPIS_INDEX_LENGTH : ℕ := 255

/-! ## Rows as SQL sees them -/

def IndexJob.toRow (j : IndexJob) : Sql.Row :=
  [(ascii "jobid", .str j.jobid), (ascii "dg_jobid", .str j.dgJobid),
    (ascii "ownerid", .str j.ownerid), (ascii "ps", .str j.ps)] ++
    j.columns.map fun c => (ascii "attr_" ++ c.1, .str c.2)

def AttrRow.toRow (r : AttrRow) : Sql.Row :=
  [(ascii "jobid", .str r.jobid), (ascii "value", .str r.value),
    (ascii "full_value", .str r.fullValue), (ascii "origin", .int r.origin)]

/-- A user as a row. -/
def userSqlRow (u : UserRow) : Sql.Row :=
  [(ascii "userid", .str u.userid), (ascii "cert_subj", .str u.certSubj)]

/-- The name of the table, and of the column, of an attribute. -/
def attrTable (id : Bytes) : Bytes := ascii "attr_" ++ id

/-- The tables the queries read, by name. -/
def IndexDb.toSql (db : IndexDb) : Sql.Database := fun t =>
  if t = ascii "jobs" then db.jobs.rows.map IndexJob.toRow
  else if t = ascii "users" then db.users.rows.map userSqlRow
  else (db.values (t.drop 5)).map AttrRow.toRow

section ToSql

variable (db : IndexDb) {id : Bytes}

theorem attrTable_ne_jobs : attrTable id ≠ ascii "jobs" :=
  fun h => absurd (List.cons.inj h).1 (by decide)

theorem attrTable_ne_users : attrTable id ≠ ascii "users" :=
  fun h => absurd (List.cons.inj h).1 (by decide)

theorem drop_attrTable : (attrTable id).drop 5 = id := List.drop_left' rfl

theorem toSql_jobs : db.toSql (ascii "jobs") = db.jobs.rows.map IndexJob.toRow := if_pos rfl

theorem toSql_users : db.toSql (ascii "users") = db.users.rows.map userSqlRow := by
  rw [IndexDb.toSql, if_neg (by decide), if_pos rfl]

theorem toSql_attrTable : db.toSql (attrTable id) = (db.values id).map AttrRow.toRow := by
  rw [IndexDb.toSql, if_neg attrTable_ne_jobs, if_neg attrTable_ne_users, drop_attrTable]

end ToSql

/-! ## A server -/

/-- An attribute of users. -/
def sampleAttr : Bytes := ascii "urn:app:color"

/-- A server that knows job identifiers and an attribute. -/
def sampleServer (noAuth : Bool) : IndexContext where
  conf :=
    { attrs := [GLITE_JP_ATTR_JOBID, sampleAttr]
      multivalAttrs := []
      queriableAttrs := []
      noAuth := noAuth }
  peer := some (ascii "/CN=alice")
  plugins := []
  b64 := .standard
  md5 := sampleMd5
  isMd5 := isMd5_sampleMd5
  quoting := .standard
  coll := .binary

/-- A job of the client. -/
def sampleIndexJob : IndexJob where
  jobid := sampleMd5 (ascii "https://lb/job")
  dgJobid := ascii "https://lb/job"
  ownerid := sampleMd5 (ascii "/CN=alice")
  ps := ascii "https://ps"
  columns := []

/-- The database with that job. -/
def sampleIndexDb : IndexDb where
  jobs := ⟨[sampleIndexJob], List.pairwise_singleton _ _⟩
  users := ⟨[⟨sampleMd5 (ascii "/CN=alice"), ascii "/CN=alice"⟩], List.pairwise_singleton _ _⟩
  feeds := .empty
  attrs := [⟨attr2id sampleMd5 sampleAttr, sampleAttr, 1⟩]
  values := fun _ => []

end JobProvenance
