import JobProvenance.Index.QueryParse

/-!
# What a query selects

A query means that every condition holds of a job, a condition on an attribute
holding if one of the values stored for the job satisfies one of its records
(`ConditionHolds`). What the text of the query asks for instead is one value of
each attribute that meets all conditions on it (`Taken`).

* `mem_getJobids`: the jobs the database returns;
* `owned_of_mem_getJobids`: they are the client's own, on a server that looks
  at the owner;
* `selectsExactly_iff`: they are the jobs every condition holds of, exactly when
  the conditions are well shaped and both readings agree.
-/

namespace JobProvenance

open Sql

/-! ## The meaning of a condition -/

section Meaning

variable (ctx : IndexContext)

/-- Whether an operator holds of a stored string and the values of a record; a
    value that is missing is not compared with. -/
def QueryOp.Holds (coll : Collation) (x : Bytes) : QueryOp → Option Bytes → Option Bytes → Prop
  | .EQUAL, some v, _ => coll.cmp x v = .eq
  | .UNEQUAL, some v, _ => coll.cmp x v ≠ .eq
  | .GREATER, some v, _ => coll.cmp x v = .gt
  | .LESS, some v, _ => coll.cmp x v = .lt
  | .WITHIN, some v, some v2 => coll.cmp x v ≠ .lt ∧ coll.cmp x v2 ≠ .gt
  | .EXISTS, _, _ => True
  | _, _, _ => False

/-- A stored string satisfies one of the records of a condition. -/
def Wanted (c : IndexQuery) (x : Bytes) : Prop :=
  ∃ r ∈ c.record, r.op.Holds ctx.coll x (operand ctx c r.value) (operand ctx c r.value2)

/-- A value has the origin a condition asks for. -/
def OriginIs (c : IndexQuery) (origin : ℤ) : Prop :=
  ∀ orig ∈ c.origin, origin = (soapToAttrOrig (some orig)).toNat

/-- A condition holds of a job. -/
def ConditionHolds (db : IndexDb) (job : IndexJob) (c : IndexQuery) : Prop :=
  match conditionId ctx c with
  | none => Wanted ctx c job.dgJobid
  | some id => ∃ row ∈ db.values id,
      row.jobid = job.jobid ∧ OriginIs c row.origin ∧ Wanted ctx c row.value

/-- A job belongs to the client, or the server does not look at the owner. -/
def Owned (db : IndexDb) (job : IndexJob) : Prop :=
  ctx.conf.noAuth = true ∨
    ∃ u ∈ db.users.rows, u.userid = job.ownerid ∧ ctx.peer = some u.certSubj

/-- A request that is not refused. -/
def Admitted (db : IndexDb) (req : QueryJobs) : Prop :=
  checkIndexedConditions db req = false ∧ checkConditions ctx.conf req = false

/-- Whatever the database holds, the query of a request returns exactly the jobs
    of which all conditions hold. -/
def SelectsExactly (req : QueryJobs) : Prop := ∀ db, Admitted ctx db req →
  ∃ rows, getJobids ctx db req.conditions = .ok rows ∧ ∀ jobid ps, (jobid, ps) ∈ rows ↔
    ∃ job ∈ db.jobs.rows, job.dgJobid = jobid ∧ job.ps = ps ∧ Owned ctx db job ∧
      ∀ c ∈ req.conditions, ConditionHolds ctx db job c

/-! ## The meaning of the text -/

/-- What the text of a condition says of a string: nothing, if no record
    compares something, and otherwise that one of these holds; values that are
    missing are printed as null pointers are. -/
def Selected (c : IndexQuery) (x : Bytes) : Prop :=
  (∀ r ∈ c.record, r.op = .EXISTS) ∨ ∃ r ∈ c.record, r.op ≠ .EXISTS ∧
    r.op.Holds ctx.coll x (some ((operand ctx c r.value).getD nullText))
      (some ((operand ctx c r.value2).getD nullText))

/-- What it says of a job and one value of each attribute. -/
def Taken (job : IndexJob) (value : Bytes → AttrRow) (c : IndexQuery) : Prop :=
  match conditionId ctx c with
  | none => Selected ctx c job.dgJobid
  | some id => (value id).jobid = job.jobid ∧ OriginIs c (value id).origin ∧
      Selected ctx c (value id).value

variable {ctx} {c : IndexQuery} {r : IndexQueryRecord} {env : Env} {e : Expr} {x : Bytes}

theorem eval_cmp_str {op : Op} {a b : Operand} {v : Bytes} (ha : a.value env = some (.str x))
    (hb : b.value env = some (.str v)) :
    (Expr.cmp op a b).eval ctx.coll env = op.holds (ctx.coll.cmp x v) := by
  simp [Expr.eval, compareOperands, ha, hb, Value.cmp]

theorem eval_cmp_int {op : Op} {a b : Operand} {m n : ℤ} (ha : a.value env = some (.int m))
    (hb : b.value env = some (.int n)) :
    (Expr.cmp op a b).eval ctx.coll env = op.holds (compare m n) := by
  simp [Expr.eval, compareOperands, ha, hb, Value.cmp]

/-- The comparison of a record, as SQL evaluates it. -/
theorem eval_recordExpr (he : recordExpr ctx c r = some e)
    (hcol : env.col (column ctx c) = some (.str x)) : e.eval ctx.coll env = true ↔
      r.op.Holds ctx.coll x (some ((operand ctx c r.value).getD nullText))
        (some ((operand ctx c r.value2).getD nullText)) := by
  have hx : (Operand.col (column ctx c)).value env = some (.str x) := hcol
  have hlit : ∀ v, (literal ctx c v).value env = some (.str ((operand ctx c v).getD nullText)) :=
    fun v => rfl
  rcases hr : r.op <;> simp only [recordExpr, compareOp, hr, reduceIte, Option.some.injEq,
    reduceCtorEq] at he
  case WITHIN =>
    subst he
    simp [Expr.eval, compareOperands, hx, hlit, Value.cmp, QueryOp.Holds]
  all_goals
    subst he
    rw [eval_cmp_str hx (hlit _)]
    simp [Op.holds, QueryOp.Holds]

/-- The alternatives of a condition, as SQL evaluates them. -/
theorem all_orExprs (hcol : env.col (column ctx c) = some (.str x)) :
    (orExprs (c.record.filterMap (recordExpr ctx c))).all (·.eval ctx.coll env) = true ↔
      Selected ctx c x := by
  have hany : (c.record.filterMap (recordExpr ctx c)).any (·.eval ctx.coll env) = true ↔
      ∃ r ∈ c.record, r.op ≠ .EXISTS ∧
        r.op.Holds ctx.coll x (some ((operand ctx c r.value).getD nullText))
          (some ((operand ctx c r.value2).getD nullText)) := by
    simp only [List.any_eq_true, List.mem_filterMap]
    constructor
    · rintro ⟨e, ⟨r, hr, he⟩, heval⟩
      refine ⟨r, hr, fun hop => ?_, (eval_recordExpr he hcol).1 heval⟩
      rw [recordExpr_of_exists hop] at he
      cases he
    · rintro ⟨r, hr, hop, hholds⟩
      obtain ⟨e, he⟩ := Option.ne_none_iff_exists'.1 (mt (@recordExpr_eq_none ctx c r).1 hop)
      exact ⟨e, ⟨r, hr, he⟩, (eval_recordExpr he hcol).2 hholds⟩
  rcases hes : c.record.filterMap (recordExpr ctx c) with _ | ⟨e, es⟩
  · exact iff_of_true rfl (.inl (filterMap_recordExpr_eq_nil.1 hes))
  · have hall : ¬∀ r ∈ c.record, r.op = .EXISTS := fun h => by
      rw [filterMap_recordExpr_eq_nil.2 h] at hes
      cases hes
    rw [Selected, or_iff_right hall, ← hany, hes, orExprs, List.all_cons, List.all_nil,
      Bool.and_true, eval_foldl_or, List.any_cons]

end Meaning

/-! ## The jobs the query returns -/

section Result

variable {ctx : IndexContext} {db : IndexDb} {cs : List IndexQuery} {c : IndexQuery}

/-- The rows of the tables of a query, from a job, its owner and one value of
    each attribute. -/
def rowsOf (job : IndexJob) (user : UserRow) (value : Bytes → AttrRow) (t : Bytes) : Row :=
  if t = ascii "jobs" then job.toRow
  else if t = ascii "users" then userSqlRow user
  else (value (t.drop 5)).toRow

section Columns

variable {job : IndexJob} {user : UserRow} {value : Bytes → AttrRow} {id : Bytes}

theorem mem_queryTables {t : Bytes} : t ∈ queryTables ctx cs ↔ t = ascii "jobs" ∨
    (ctx.conf.noAuth = false ∧ t = ascii "users") ∨ ∃ id ∈ attrTables ctx cs [], attrTable id = t := by
  rw [queryTables, List.mem_cons, List.mem_append, List.mem_map]
  cases ctx.conf.noAuth <;> simp

theorem nodup_queryTables : (queryTables ctx cs).Nodup := by
  have hinj : Function.Injective attrTable := fun a b h => List.append_cancel_left h
  have hattrs := (@nodup_attrTables ctx cs [] List.nodup_nil).map hinj
  have hjobs : ∀ l, ascii "jobs" ∉ List.map attrTable l := by
    intro l h
    obtain ⟨id, -, hid⟩ := List.mem_map.1 h
    exact attrTable_ne_jobs hid
  have husers : ∀ l, ascii "users" ∉ List.map attrTable l := by
    intro l h
    obtain ⟨id, -, hid⟩ := List.mem_map.1 h
    exact attrTable_ne_users hid
  have hne : ascii "jobs" ≠ ascii "users" := by decide
  rw [queryTables]
  cases ctx.conf.noAuth
  · simp [hattrs, hjobs, husers, hne]
  · simp [hattrs, hjobs]

/-- The rows of some choice of rows of the tables. -/
theorem exists_rowsOf {row : Bytes → Row} (hrow : ∀ t ∈ queryTables ctx cs, row t ∈ db.toSql t) :
    ∃ job ∈ db.jobs.rows, ∃ user, (ctx.conf.noAuth = false → user ∈ db.users.rows) ∧
      ∃ value, (∀ id ∈ attrTables ctx cs [], value id ∈ db.values id) ∧
        ∀ t ∈ queryTables ctx cs, row t = rowsOf job user value t := by
  obtain ⟨job, hjob, hjrow⟩ := List.mem_map.1
    (toSql_jobs db ▸ hrow _ (mem_queryTables.2 (.inl rfl)))
  have huser : ∃ user, (ctx.conf.noAuth = false → user ∈ db.users.rows) ∧
      (ctx.conf.noAuth = false → userSqlRow user = row (ascii "users")) := by
    rcases hauth : ctx.conf.noAuth with _ | _
    · obtain ⟨user, huser, hurow⟩ := List.mem_map.1
        (toSql_users db ▸ hrow _ (mem_queryTables.2 (.inr (.inl ⟨hauth, rfl⟩))))
      exact ⟨user, fun _ => huser, fun _ => hurow⟩
    · exact ⟨⟨[], []⟩, by simp, by simp⟩
  obtain ⟨user, huser, hurow⟩ := huser
  have hvalue : ∀ id, ∃ v : AttrRow, id ∈ attrTables ctx cs [] →
      v ∈ db.values id ∧ v.toRow = row (attrTable id) := by
    intro id
    by_cases hid : id ∈ attrTables ctx cs []
    · obtain ⟨v, hv, hvrow⟩ := List.mem_map.1
        (toSql_attrTable db ▸ hrow _ (mem_queryTables.2 (.inr (.inr ⟨id, hid, rfl⟩))))
      exact ⟨v, fun _ => ⟨hv, hvrow⟩⟩
    · exact ⟨⟨[], [], [], 0⟩, fun h => absurd h hid⟩
  choose value hvalue using hvalue
  refine ⟨job, hjob, user, huser, value, fun id hid => (hvalue id hid).1, fun t ht => ?_⟩
  rcases mem_queryTables.1 ht with rfl | ⟨hauth, rfl⟩ | ⟨id, hid, rfl⟩
  · rw [rowsOf, if_pos rfl, hjrow]
  · rw [rowsOf, if_neg (by decide), if_pos rfl, hurow hauth]
  · rw [rowsOf, if_neg attrTable_ne_jobs, if_neg attrTable_ne_users, drop_attrTable, (hvalue id hid).2]

theorem rowsOf_mem (hjob : job ∈ db.jobs.rows)
    (huser : ctx.conf.noAuth = false → user ∈ db.users.rows)
    (hvalue : ∀ id ∈ attrTables ctx cs [], value id ∈ db.values id) :
    ∀ t ∈ queryTables ctx cs, rowsOf job user value t ∈ db.toSql t := by
  intro t ht
  rcases mem_queryTables.1 ht with rfl | ⟨hauth, rfl⟩ | ⟨id, hid, rfl⟩
  · rw [rowsOf, if_pos rfl, toSql_jobs]
    exact List.mem_map_of_mem hjob
  · rw [rowsOf, if_neg (by decide), if_pos rfl, toSql_users]
    exact List.mem_map_of_mem (huser hauth)
  · rw [rowsOf, if_neg attrTable_ne_jobs, if_neg attrTable_ne_users, drop_attrTable, toSql_attrTable]
    exact List.mem_map_of_mem (hvalue id hid)

/-- One row of each table of a query. -/
def queryEnv (ctx : IndexContext) (cs : List IndexQuery) (job : IndexJob) (user : UserRow)
    (value : Bytes → AttrRow) : Env :=
  envOf (queryTables ctx cs) (rowsOf job user value)

/-- The columns of the tables of a query. -/
theorem col_jobs (col : Bytes) : (queryEnv ctx cs job user value).col
    (ascii "jobs" ++ ch '.' :: col) = job.toRow.lookup col := by
  rw [queryEnv, col_envOf (mem_queryTables.2 (.inl rfl)) (by decide), rowsOf, if_pos rfl]

theorem col_users (hauth : ctx.conf.noAuth = false) (col : Bytes) :
    (queryEnv ctx cs job user value).col (ascii "users" ++ ch '.' :: col) =
      (userSqlRow user).lookup col := by
  rw [queryEnv, col_envOf (mem_queryTables.2 (.inr (.inl ⟨hauth, rfl⟩))) (by decide), rowsOf,
    if_neg (by decide), if_pos rfl]

theorem col_attr (hid : id ∈ attrTables ctx cs []) (col : Bytes) :
    (queryEnv ctx cs job user value).col (attrTable id ++ ch '.' :: col) =
      (value id).toRow.lookup col := by
  have hdot : ch '.' ∉ attrTable id := by
    intro h
    rcases List.mem_append.1 h with h | h
    · exact absurd h (by decide)
    · exact absurd (attrTables_digits id hid _ h) (by decide)
  rw [queryEnv, col_envOf (mem_queryTables.2 (.inr (.inr ⟨id, hid, rfl⟩))) hdot, rowsOf,
    if_neg attrTable_ne_jobs, if_neg attrTable_ne_users, drop_attrTable]

/-- The conjuncts of a condition, as SQL evaluates them. -/
theorem all_conditionExprs (hc : c ∈ cs) : (conditionExprs ctx c).all
    (·.eval ctx.coll (queryEnv ctx cs job user value)) = true ↔
      Taken ctx job value c := by
  rcases hid : conditionId ctx c with _ | id
  · have hcol : (queryEnv ctx cs job user value).col (column ctx c) =
        some (.str job.dgJobid) := by
      rw [column, hid]
      exact @col_jobs ctx cs job user value (ascii "dg_jobid")
    rw [conditionExprs, Taken, hid, Option.elim_none, List.nil_append, all_orExprs hcol]
  · have hmem : id ∈ attrTables ctx cs [] := mem_attrTables.2 (.inr ⟨c, hc, hid⟩)
    have hcol : (queryEnv ctx cs job user value).col (column ctx c) =
        some (.str (value id).value) := by
      rw [column, hid]
      exact @col_attr ctx cs job user value id hmem (ascii "value")
    have hjob : Operand.value (queryEnv ctx cs job user value)
        (.col (ascii "jobs.jobid")) = some (.str job.jobid) :=
      @col_jobs ctx cs job user value (ascii "jobid")
    have hattr : Operand.value (queryEnv ctx cs job user value)
        (.col (attrTable id ++ ascii ".jobid")) = some (.str (value id).jobid) :=
      @col_attr ctx cs job user value id hmem (ascii "jobid")
    have horigin : Operand.value (queryEnv ctx cs job user value)
        (.col (attrTable id ++ ascii ".origin")) = some (.int (value id).origin) :=
      @col_attr ctx cs job user value id hmem (ascii "origin")
    have hjoin : (joinExprs c id).all
        (·.eval ctx.coll (queryEnv ctx cs job user value)) = true ↔
        (value id).jobid = job.jobid ∧ OriginIs c (value id).origin := by
      rw [joinExprs, List.all_append, Bool.and_eq_true, List.all_cons, List.all_nil, Bool.and_true,
        eval_cmp_str hjob hattr, and_comm]
      refine and_congr ?_ ?_
      · simp [Op.holds, ctx.coll.eq_iff, eq_comm]
      · rcases ho : c.origin with _ | orig
        · simp [OriginIs, ho]
        · have hnum : Operand.value (queryEnv ctx cs job user value)
              (.num (soapToAttrOrig (some orig)).toNat) =
              some (.int (soapToAttrOrig (some orig)).toNat) := rfl
          simp [OriginIs, ho, eval_cmp_int horigin hnum, Op.holds]
    rw [conditionExprs, Taken, hid, Option.elim_some, List.all_append, Bool.and_eq_true,
      all_orExprs hcol, hjoin, and_assoc]

/-- The test of the owner, as SQL evaluates it. -/
theorem all_ownerExprs (hpeer : ctx.conf.noAuth = false → ∃ peer, Identified ctx peer) :
    (ownerExprs ctx).all
      (·.eval ctx.coll (queryEnv ctx cs job user value)) = true ↔
      ctx.conf.noAuth = true ∨ user.userid = job.ownerid ∧ ctx.peer = some user.certSubj := by
  rcases hauth : ctx.conf.noAuth with _ | _
  · obtain ⟨peer, hpeer, -⟩ := hpeer hauth
    have hjob : Operand.value (queryEnv ctx cs job user value)
        (.col (ascii "jobs.ownerid")) = some (.str job.ownerid) :=
      @col_jobs ctx cs job user value (ascii "ownerid")
    have huser : Operand.value (queryEnv ctx cs job user value)
        (.col (ascii "users.userid")) = some (.str user.userid) :=
      @col_users ctx cs job user value hauth (ascii "userid")
    have hcert : Operand.value (queryEnv ctx cs job user value)
        (.col (ascii "users.cert_subj")) = some (.str user.certSubj) :=
      @col_users ctx cs job user value hauth (ascii "cert_subj")
    have hlit : Operand.value (queryEnv ctx cs job user value)
        (.lit peer) = some (.str peer) := rfl
    rw [ownerExprs, hauth, hpeer, if_neg Bool.false_ne_true, List.all_cons, List.all_nil,
      Bool.and_true, Expr.eval, Bool.and_eq_true, Option.getD_some, eval_cmp_str hjob huser,
      eval_cmp_str hcert hlit]
    simp [Op.holds, ctx.coll.eq_iff, eq_comm]
  · simp [ownerExprs, hauth]

end Columns

/-- A query is well shaped when its text is one condition. -/
theorem wellShaped_iff : WellShaped cs ↔ shape true 0 cs = some false := by
  rw [shape_true, WellShaped]
  simp only [and_true]

/-- The conjuncts of a well shaped query are not none. -/
theorem queryExprs_ne_nil (hshape : WellShaped cs) : queryExprs ctx cs ≠ [] := by
  obtain ⟨pre, c, post, rfl, -, hc, -⟩ := hshape
  have hne : conditionExprs ctx c ≠ [] := by
    rw [conditionExprs]
    rcases hid : conditionId ctx c with _ | id
    · rcases hes : c.record.filterMap (recordExpr ctx c) with _ | ⟨e, es⟩
      · exact absurd ⟨conditionId_eq_none.1 hid, filterMap_recordExpr_eq_nil.1 hes⟩ hc
      · simp [orExprs]
    · simp [joinExprs]
  simp [queryExprs, hne]

/-- The text of a well shaped query is a query for all of its conjuncts, … -/
theorem parse_of_wellShaped (hcs : ∀ c ∈ cs, Buildable ctx c) (hshape : WellShaped cs)
    (hpeer : ctx.conf.noAuth = false → ∃ peer, Identified ctx peer) : ∃ text e,
      queryText ctx cs = .ok text ∧
      Sql.parse text = some ⟨[ascii "dg_jobid", ascii "ps"], queryTables ctx cs, e⟩ ∧
      ∀ coll env, e.eval coll env = (queryExprs ctx cs).all (·.eval coll env) := by
  obtain ⟨text, htext, hparse⟩ := parse_queryText hcs hpeer
  obtain ⟨e, he, heval⟩ := close_foldl_push (@queryExprs_ne_nil ctx cs hshape)
  refine ⟨text, e, htext, ?_, heval⟩
  rw [hparse, wellShaped_iff.1 hshape, Option.bind_some, if_neg Bool.false_ne_true, he,
    Option.map_some]

/-- … and no other text is a query. -/
theorem wellShaped_of_getJobids {rows : List (Bytes × Bytes)}
    (hpeer : ctx.conf.noAuth = false → ∃ peer, Identified ctx peer)
    (h : getJobids ctx db cs = .ok rows) : (∀ c ∈ cs, Buildable ctx c) ∧ WellShaped cs := by
  simp only [getJobids, Exec.bind_eq_ok] at h
  obtain ⟨text, htext, h⟩ := h
  have hcs : ∀ c ∈ cs, Buildable ctx c := by
    by_contra hcs
    simp only [queryText, Exec.bind_eq_ok] at htext
    obtain ⟨r, hr, -⟩ := htext
    exact whereFrom_ne hcs _ r hr
  refine ⟨hcs, ?_⟩
  obtain ⟨text', htext', hparse⟩ := parse_queryText hcs hpeer
  obtain rfl : text' = text := Except.ok.inj (htext'.symm.trans htext)
  rw [wellShaped_iff]
  rcases hshape : shape true 0 cs with _ | _ | _
  · rw [hparse, hshape] at h
    cases h
  · rfl
  · rw [hparse, hshape] at h
    cases h

theorem cols_rowsOf {job : IndexJob} {user : UserRow} {value : Bytes → AttrRow} :
    [ascii "dg_jobid", ascii "ps"].mapM (queryEnv ctx cs job user value).col =
      some [.str job.dgJobid, .str job.ps] := by
  have hcol : ∀ col v, afterFirst (ch '.') col = none → job.toRow.lookup col = some v →
      (queryEnv ctx cs job user value).col col = some v := by
    intro col v hdot hv
    rw [Env.col, hdot]
    have hhead : queryEnv ctx cs job user value = (ascii "jobs", job.toRow) ::
        envOf (queryTables ctx cs).tail (rowsOf job user value) := rfl
    rw [hhead, List.findSome?_cons_of_isSome]
    · exact hv
    · rw [hv]
      rfl
  rw [List.mapM_cons, hcol _ (.str job.dgJobid) (by decide) rfl, List.mapM_cons,
    hcol _ (.str job.ps) (by decide) rfl]
  rfl

/-- The jobs the database returns for a query whose text it understands. -/
theorem mem_getJobids (db : IndexDb) (hcs : ∀ c ∈ cs, Buildable ctx c) (hshape : WellShaped cs)
    (hpeer : ctx.conf.noAuth = false → ∃ peer, Identified ctx peer) :
    ∃ rows, getJobids ctx db cs = .ok rows ∧ ∀ jobid ps, (jobid, ps) ∈ rows ↔
      ∃ job ∈ db.jobs.rows, job.dgJobid = jobid ∧ job.ps = ps ∧ Owned ctx db job ∧
        ∃ value : Bytes → AttrRow, (∀ id ∈ attrTables ctx cs [], value id ∈ db.values id) ∧
          ∀ c ∈ cs, Taken ctx job value c := by
  obtain ⟨text, e, htext, hparse, heval⟩ := parse_of_wellShaped hcs hshape hpeer
  refine ⟨_, by rw [getJobids, htext, Exec.ok_bind, hparse]; rfl, fun jobid ps => ?_⟩
  have hnodup : (Select.mk [ascii "dg_jobid", ascii "ps"] (queryTables ctx cs) e).tables.Nodup :=
    nodup_queryTables
  rw [List.mem_filterMap]
  simp only [fetchJob_eq_some, exists_eq_right]
  rw [mem_eval hnodup]
  simp only [heval]
  have hall : ∀ job user value, (queryExprs ctx cs).all
      (·.eval ctx.coll (queryEnv ctx cs job user value)) = true ↔
      (ctx.conf.noAuth = true ∨ user.userid = job.ownerid ∧ ctx.peer = some user.certSubj) ∧
        ∀ c ∈ cs, Taken ctx job value c := by
    intro job user value
    rw [queryExprs, List.all_append, Bool.and_eq_true, all_ownerExprs hpeer, List.all_flatMap,
      List.all_eq_true]
    exact and_congr_right fun _ => forall₂_congr fun c hc => all_conditionExprs hc
  constructor
  · rintro ⟨row, hrow, hc, hcols⟩
    obtain ⟨job, hjob, user, huser, value, hvalue, heq⟩ := exists_rowsOf hrow
    have henv : envOf (queryTables ctx cs) row = queryEnv ctx cs job user value := by
      rw [queryEnv, envOf, envOf]
      exact List.map_congr_left fun t ht => by rw [heq t ht]
    rw [henv, cols_rowsOf, Option.some.injEq] at hcols
    rw [henv, hall] at hc
    simp only [List.cons.injEq, Value.str.injEq, and_true] at hcols
    refine ⟨job, hjob, hcols.1, hcols.2, ?_, value, hvalue, hc.2⟩
    rcases hauth : ctx.conf.noAuth with _ | _
    · exact .inr ⟨user, huser hauth, hc.1.resolve_left (by simp [hauth])⟩
    · exact .inl hauth
  · rintro ⟨job, hjob, rfl, rfl, howned, value, hvalue, htaken⟩
    obtain ⟨user, huser, huser'⟩ : ∃ user, (ctx.conf.noAuth = false → user ∈ db.users.rows) ∧
        (ctx.conf.noAuth = true ∨ user.userid = job.ownerid ∧ ctx.peer = some user.certSubj) := by
      rcases howned with hauth | ⟨user, huser, howner⟩
      · exact ⟨⟨[], []⟩, by simp [hauth], .inl hauth⟩
      · exact ⟨user, fun _ => huser, .inr howner⟩
    exact ⟨_, rowsOf_mem hjob huser hvalue, (hall job user value).2 ⟨huser', htaken⟩, cols_rowsOf⟩

/-- A row that is returned is one of a job of the client. -/
theorem owned_of_getJobids {peer : Bytes} (hauth : ctx.conf.noAuth = false)
    (hpeer : Identified ctx peer) {rows : List (Bytes × Bytes)}
    (h : getJobids ctx db cs = .ok rows) : ∀ row ∈ rows, ∃ job ∈ db.jobs.rows,
      job.dgJobid = row.1 ∧ job.ps = row.2 ∧
      ∃ user ∈ db.users.rows, user.userid = job.ownerid ∧ user.certSubj = peer := by
  obtain ⟨hcs, hshape⟩ := wellShaped_of_getJobids (fun _ => ⟨peer, hpeer⟩) h
  obtain ⟨rows', hrows, hmem⟩ := mem_getJobids db hcs hshape fun _ => ⟨peer, hpeer⟩
  obtain rfl : rows' = rows := Except.ok.inj (hrows.symm.trans h)
  rintro ⟨jobid, ps⟩ hrow
  obtain ⟨job, hjob, hid, hps, howned, -⟩ := (hmem jobid ps).1 hrow
  obtain ⟨user, huser, huserid, hcert⟩ := howned.resolve_left (by simp [hauth])
  refine ⟨job, hjob, hid, hps, user, huser, huserid, ?_⟩
  exact Option.some.inj (hcert.symm.trans hpeer.1)

/-- On a server that looks at the owner, the jobs returned are the client's own,
    whatever the conditions are. -/
theorem owned_of_mem_getJobids {peer : Bytes} (hauth : ctx.conf.noAuth = false)
    (hpeer : Identified ctx peer) {rows : List (Bytes × Bytes)}
    (h : getJobids ctx db cs = .ok rows) : ∀ row ∈ rows, ∃ job ∈ db.jobs.rows,
      job.dgJobid = row.1 ∧ job.ps = row.2 ∧
      ∃ user ∈ db.users.rows, user.userid = job.ownerid ∧ user.certSubj = peer :=
  owned_of_getJobids hauth hpeer h

end Result

/-- The client of a server that looks at the owner asks for its job. -/
theorem owned_of_mem_getJobids_sample :
    getJobids (sampleServer false) sampleIndexDb [jobidCondition] =
      .ok [(ascii "https://lb/job", ascii "https://ps")] ∧
    ∃ job ∈ sampleIndexDb.jobs.rows, job.dgJobid = ascii "https://lb/job" ∧
      job.ps = ascii "https://ps" ∧
      ∃ user ∈ sampleIndexDb.users.rows, user.userid = job.ownerid ∧
        user.certSubj = ascii "/CN=alice" := by
  have h : getJobids (sampleServer false) sampleIndexDb [jobidCondition] =
      .ok [(ascii "https://lb/job", ascii "https://ps")] := by
    decide +kernel
  exact ⟨h, owned_of_mem_getJobids rfl ⟨rfl, by decide, by decide⟩ h _ (List.mem_singleton_self _)⟩

end JobProvenance
