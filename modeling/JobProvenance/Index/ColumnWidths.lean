import JobProvenance.Index.FedAnswers

/-!
# The widths of the columns

The columns of the tables are not as wide as what is delivered. The database of the
index is not strict (the schema has a column that no statement sets and that has no
default), so it cuts what is too wide for its column, and the statement succeeds.

* `Widths.updateJobs`: the operation, when what it stores is cut;
* `updateJobs_simulates`: records that fit are stored as if nothing was cut, but for
  the names of the owners;
* `answers_of_reachable`: so what is fed is what is answered, when it fits;
* `not_answered_longJob`: a job whose identifier is cut is not found again.
-/

namespace JobProvenance

open Stateful

/-! ## The operation on columns that cut -/

/-- What the columns hold of what they get: those of hashes (`char(32)`), those of names
    and of the values to search for (`varchar(255)`), and those of the texts of values
    (`mediumblob`). That much of bytes they hold whole. -/
structure Widths where
  hash : Bytes → Bytes
  name : Bytes → Bytes
  text : Bytes → Bytes
  hash_eq : ∀ s, s.length ≤ 32 → hash s = s
  name_eq : ∀ s, s.length ≤ 255 → name s = s
  text_eq : ∀ s, s.length < 2 ^ 24 → text s = s

namespace Widths

/-- The columns that count bytes. -/
def bytes : Widths where
  hash s := s.take 32
  name s := s.take 255
  text s := s.take (2 ^ 24 - 1)
  hash_eq _ h := List.take_of_length_le h
  name_eq _ h := List.take_of_length_le h
  text_eq _ h := List.take_of_length_le (Nat.le_sub_one_of_lt h)

variable (w : Widths) (ctx : IndexContext) (fails : Statement → Bool)

/-- What the table of users holds of a user; a hash fits. -/
def user (u : UserRow) : UserRow := { u with certSubj := w.name u.certSubj }

/-- What a table of values holds of a value. -/
def attrRow (row : AttrRow) : AttrRow :=
  { row with value := w.name row.value, fullValue := w.text row.fullValue }

/-- What the table of jobs holds in a column that is set. -/
def column (c : Bytes × Bytes) : Bytes × Bytes :=
  (c.1, if c.1 = ascii "jobid" ∨ c.1 = ascii "ownerid" then w.hash c.2 else w.name c.2)

/-- Inserts a job without values. -/
def insertJobRow (ps jobid owner : Bytes) (db : IndexDb) : Option IndexDb :=
  (db.jobs.insert ⟨ctx.md5 jobid, w.name jobid, ctx.md5 owner, w.name ps, newColumns ctx⟩).map
    fun jobs => { db with jobs }

/-- Inserts a user. -/
def insertUserRow (owner : Bytes) (db : IndexDb) : Option IndexDb :=
  (db.users.insert (w.user ⟨ctx.md5 owner, owner⟩)).map fun users => { db with users }

/-- Executes the text of an update of the jobs: the number of rows it changes. -/
def execUpdate (sql : Bytes) (db : IndexDb) : Option (ℕ × IndexDb) := do
  let u ← Sql.parseUpdate sql
  if u.table ≠ ascii "jobs" then none
  let (n, rows) ← u.apply ctx.coll IndexJob.toRow (fun j c => j.setColumn (w.column c)) db.jobs.rows
  if h : rows.Pairwise fun a b => ¬IndexJob.Clash a b then
    some (n, { db with jobs := ⟨rows, h⟩ })
  else none

/-- Inserts a job and its owner, unless they are there. -/
def lazyInsertJob (ijobs : ℕ) (ps : Bytes) : Option Bytes → Option Bytes → Operation Unit
  | some jobid, some owner => do
    lazyInsert fails (.selectJobid ijobs) (.insertJob ijobs) (·.countJobs (ctx.md5 jobid))
      (w.insertJobRow ctx ps jobid owner)
    lazyInsert fails (.selectUser ijobs) (.insertUser ijobs) (·.countUsers (ctx.md5 owner))
      (w.insertUserRow ctx owner)
  | _, _ => throw (.fault none)

/-- Stores a value of an attribute. -/
def insertAttrVal (ijobs iattrs : ℕ) (jobid : Bytes) (av : Attrval) : Operation Unit := do
  let id := attr2id ctx.md5 av.name
  let (row, value) ← liftExec (attrvalRow ctx jobid av)
  expectOne fails (.insertAttrval ijobs iattrs)
    fun db => some (1, insertValueRow id (w.attrRow row) db)
  if hasColumn ctx.conf av.name then
    expectOne fails (.insertSingleattrval ijobs iattrs)
      (w.execUpdate ctx (insertSingleattrvalSql id value jobid))

/-- Stores a value of a message, if its attribute is known. -/
def updateAttr (ijobs iattrs : ℕ) (jobid : Bytes) (attr : AttrValue) : Operation Unit := do
  let av ← liftExec (soapToAttrVal attr)
  if isKnown ctx.conf attr.name then
    let av ← liftExec (Exec.deref av)
    w.insertAttrVal ctx fails ijobs iattrs jobid av

/-- The values of a record from the number `iattrs` on. -/
def updateAttrs (ijobs : ℕ) (jobid : Bytes) : ℕ → List AttrValue → Operation Unit
  | _, [] => pure ()
  | iattrs, attr :: attrs => do
    w.updateAttr ctx fails ijobs iattrs jobid attr
    updateAttrs ijobs jobid (iattrs + 1) attrs

/-- Stores a record. -/
def updateJob (ijobs : ℕ) (ps : Bytes) (jobAttrs : JobRecord) : Operation Unit := do
  if jobAttrs.remove = some true then throw .abort
  w.lazyInsertJob ctx fails ijobs ps jobAttrs.jobid jobAttrs.owner
  w.updateAttrs ctx fails ijobs (jobAttrs.jobid.getD []) 0 jobAttrs.attributes

/-- The records from the number `ijobs` on. -/
def updateRecords (ps : Bytes) : ℕ → List JobRecord → Operation Unit
  | _, [] => pure ()
  | ijobs, r :: rs => do
    w.updateJob ctx fails ijobs ps r
    updateRecords ps (ijobs + 1) rs

/-- The operation. -/
def updateJobs (msg : UpdateJobs) : Operation Unit := do
  let feed ← selectInfoFeed fails msg.feedId
  markDone fails feed msg.feedDone
  w.updateRecords ctx fails feed.source 0 msg.jobAttributes

/-- The addresses of primary storages among the feeds are in a column as wide as that
    of the jobs. -/
def HoldsSources (db : IndexDb) : Prop := ∀ r ∈ db.feeds.rows, w.name r.source = r.source

/-- The server that is fed, with the records that were delivered to it. -/
def fedSystem : System (IndexDb × List JobRecord) FedStep where
  init s := (JobProvenance.fedSystem ctx).init s ∧ w.HoldsSources s.1
  step s a t := match a with
    | .call a => w.updateJobs ctx a.fails a.msg s.1 = .ok () t.1 ∧ t.2 = s.2 ++ a.msg.jobAttributes
    | .feeds => w.HoldsSources t.1 ∧ ∃ feeds, t = ({ s.1 with feeds }, s.2)

end Widths

/-! ## What fits -/

/-- A record fits: the identifier of its job has at most 255 bytes, and the texts its
    values are stored as are shorter than 16 MB. -/
structure JobRecord.Fits (ctx : IndexContext) (r : JobRecord) : Prop where
  jobid : ∀ jobid, r.jobid = some jobid → jobid.length ≤ 255
  text : ∀ v ∈ r.attributes, isKnown ctx.conf v.name = true → ∀ av full,
    soapToAttrVal v = .ok (some av) → attrvalToDbFull ctx.plugins ctx.b64 av = .ok (some full) →
      full.length < 2 ^ 24

/-- The records of a call fit. -/
def FedStep.Fits (ctx : IndexContext) : FedStep → Prop
  | .call a => ∀ r ∈ a.msg.jobAttributes, r.Fits ctx
  | .feeds => True

/-- A database is what another one is when the names of the users are cut. -/
structure Widths.Cuts (w : Widths) (db wide : IndexDb) : Prop where
  jobs : db.jobs = wide.jobs
  feeds : db.feeds = wide.feeds
  values : db.values = wide.values
  users : db.users.rows = wide.users.rows.map w.user
  sources : w.HoldsSources db

section Cuts

variable {w : Widths} {ctx : IndexContext} {fails : Statement → Bool} {db wide : IndexDb}
  {p : Statement} {i j : ℕ} {ps jobid id value : Bytes} {attr : AttrValue}
  {attrs : List AttrValue} {r : JobRecord} {rs : List JobRecord}

/-- A statement that succeeds is followed. -/
theorem simulates_expectOne {stmt stmt' : IndexDb → Option (ℕ × IndexDb)}
    (h : ∀ db wide, w.Cuts db wide → ∀ db', stmt db = some (1, db') →
      ∃ wide', stmt' wide = some (1, wide') ∧ w.Cuts db' wide') :
    Simulates w.Cuts (expectOne fails p stmt) (expectOne fails p stmt') := by
  intro db wide hdb _ db' hok
  obtain ⟨hfails, hstmt⟩ := expectOne_eq_ok.1 hok
  obtain ⟨wide', hwide, hdb'⟩ := h db wide hdb db' hstmt
  exact ⟨wide', expectOne_eq_ok.2 ⟨hfails, hwide⟩, hdb'⟩

theorem simulates_lazyInsert {select insert : Statement} {count : IndexDb → ℕ}
    {stmt stmt' : IndexDb → Option IndexDb}
    (hcount : ∀ db wide, w.Cuts db wide → count db = count wide)
    (h : ∀ db wide, w.Cuts db wide → ∀ db', stmt db = some db' →
      ∃ wide', stmt' wide = some wide' ∧ w.Cuts db' wide') :
    Simulates w.Cuts (lazyInsert fails select insert count stmt)
      (lazyInsert fails select insert count stmt') := by
  intro db wide hdb a db' hok
  rw [lazyInsert_eq] at hok ⊢
  rw [← hcount db wide hdb]
  split_ifs at hok ⊢
  · refine simulates_expectOne (fun db wide hdb db' hstmt => ?_) db wide hdb a db' hok
    obtain ⟨db₁, hdb₁, heq⟩ := Option.map_eq_some_iff.1 hstmt
    obtain rfl := (Prod.mk.inj heq).2
    obtain ⟨wide₁, hwide, hdb₁⟩ := h db wide hdb db₁ hdb₁
    exact ⟨wide₁, by rw [hwide]; rfl, hdb₁⟩
  · obtain rfl := (EStateM.Result.ok.inj hok).2
    exact ⟨wide, rfl, hdb⟩

theorem simulates_liftExec_bind {α : Type} {x : Exec α} {f g : α → Operation Unit}
    (h : ∀ a, x = .ok a → Simulates w.Cuts (f a) (g a)) :
    Simulates w.Cuts (liftExec x >>= f) (liftExec x >>= g) := by
  cases x with
  | ok a => exact h a rfl
  | error e => exact .throw _

/-- A job whose identifier and primary storage fit is inserted as it is. -/
theorem cuts_insertJobRow {owner : Bytes} (hjobid : jobid.length ≤ 255) (hps : w.name ps = ps)
    (h : w.Cuts db wide) {db' : IndexDb} (hdb : w.insertJobRow ctx ps jobid owner db = some db') :
    ∃ wide', insertJobRow ctx ps jobid owner wide = some wide' ∧ w.Cuts db' wide' := by
  rw [Widths.insertJobRow, w.name_eq jobid hjobid, hps, h.jobs] at hdb
  obtain ⟨jobs, hjobs, rfl⟩ := Option.map_eq_some_iff.1 hdb
  exact ⟨{ wide with jobs }, by rw [insertJobRow, hjobs]; rfl,
    rfl, h.feeds, h.values, h.users, h.sources⟩

/-- A user is inserted, when the one whose name is cut is. -/
theorem cuts_insertUserRow {owner : Bytes} (h : w.Cuts db wide) {db' : IndexDb}
    (hdb : w.insertUserRow ctx owner db = some db') :
    ∃ wide', insertUserRow ctx owner wide = some wide' ∧ w.Cuts db' wide' := by
  obtain ⟨users, husers, rfl⟩ := Option.map_eq_some_iff.1 hdb
  obtain ⟨hclash, hrows⟩ := Table.insert_eq_some.1 husers
  have hwide : ∃ users', wide.users.insert ⟨ctx.md5 owner, owner⟩ = some users' := by
    rw [← Option.ne_none_iff_exists', Ne, Table.insert_eq_none]
    rintro ⟨u, hu, hc⟩
    have hu' : w.user u ∈ db.users.rows := h.users ▸ List.mem_map_of_mem hu
    exact hclash _ hu' (hc.imp id (congrArg w.name))
  obtain ⟨users', husers'⟩ := hwide
  refine ⟨{ wide with users := users' }, by rw [insertUserRow, husers']; rfl,
    h.jobs, h.feeds, h.values, ?_, h.sources⟩
  rw [hrows, (Table.insert_eq_some.1 husers').2, List.map_append, h.users]
  rfl

theorem countUsers_of_cuts (h : w.Cuts db wide) (userid : Bytes) :
    db.countUsers userid = wide.countUsers userid := by
  rw [IndexDb.countUsers, h.users, List.countP_map]
  rfl

theorem lazyInsertJob_simulates (hjobid : ∀ x, r.jobid = some x → x.length ≤ 255)
    (hps : w.name ps = ps) :
    Simulates w.Cuts (w.lazyInsertJob ctx fails i ps r.jobid r.owner)
      (lazyInsertJob ctx fails i ps r.jobid r.owner) := by
  rcases hj : r.jobid with _ | jobid
  · exact .throw _
  rcases r.owner with _ | owner
  · exact .throw _
  refine .bind (simulates_lazyInsert (fun db wide h => ?_) fun db wide h db' hdb => ?_)
    fun _ => simulates_lazyInsert (fun db wide h => countUsers_of_cuts h _) fun db wide h db' hdb => ?_
  · rw [IndexDb.countJobs, h.jobs, IndexDb.countJobs]
  · exact cuts_insertJobRow (hjobid jobid hj) hps h hdb
  · exact cuts_insertUserRow h hdb

/-- Setting the column of an attribute to a value that fits is the same. -/
theorem execUpdate_of_fits (hid : ∀ b ∈ id, isHexDigit b = true) (hv : Sql.verbatim value = true)
    (hlen : value.length ≤ 255) : w.execUpdate ctx (insertSingleattrvalSql id value jobid) =
      execUpdate ctx (insertSingleattrvalSql id value jobid) := by
  have hcolumn : w.column (attrTable id, value) = (attrTable id, value) := by
    rw [Widths.column, w.name_eq value hlen]
    split_ifs with hname
    · rcases hname with hname | hname <;> exact absurd (List.cons.inj hname).1 (by decide)
    · rfl
  funext db
  rw [Widths.execUpdate, execUpdate]
  cases hu : Sql.parseUpdate (insertSingleattrvalSql id value jobid) with
  | none => rfl
  | some u =>
    have hsets : ∀ job : IndexJob, u.sets.foldlM (fun j c => j.setColumn (w.column c)) job =
        u.sets.foldlM IndexJob.setColumn job := fun job => by
      rw [sets_of_parseUpdate hid hv hu, List.foldlM_cons, List.foldlM_cons, hcolumn]
      rfl
    simp only [Option.bind_eq_bind, Option.bind_some, Sql.Update.apply, hsets]

/-- An update of the jobs is about the jobs only. -/
theorem execUpdate_congr {sql : Bytes} (h : db.jobs = wide.jobs) : execUpdate ctx sql wide =
    (execUpdate ctx sql db).map fun r => (r.1, { wide with jobs := r.2.jobs }) := by
  rw [execUpdate, execUpdate, h]
  cases Sql.parseUpdate sql with
  | none => rfl
  | some u =>
    simp only [Option.bind_eq_bind, Option.bind_some]
    split_ifs
    · rfl
    · cases u.apply ctx.coll IndexJob.toRow IndexJob.setColumn wide.jobs.rows with
      | none => rfl
      | some x =>
        simp only [Option.bind_some]
        split_ifs <;> rfl

theorem cuts_execUpdate {sql : Bytes} {n : ℕ} (h : w.Cuts db wide) {db' : IndexDb}
    (hdb : execUpdate ctx sql db = some (n, db')) :
    ∃ wide', execUpdate ctx sql wide = some (n, wide') ∧ w.Cuts db' wide' := by
  refine ⟨_, by rw [execUpdate_congr h.jobs, hdb]; rfl, ?_⟩
  obtain ⟨_, _, -, -, jobs, -, rfl⟩ := execUpdate_eq_some hdb
  exact ⟨rfl, h.feeds, h.values, h.users, h.sources⟩

/-- The row of a value that fits is stored as it is. -/
theorem attrRow_of_fits {av : Attrval} {row : AttrRow} (hplugins : ctx.plugins = [])
    (hfits : ∀ full, attrvalToDbFull ctx.plugins ctx.b64 av = .ok (some full) →
      full.length < 2 ^ 24)
    (hrow : attrvalRow ctx jobid av = .ok (row, value)) :
    w.attrRow row = row ∧ value.length ≤ 255 := by
  obtain ⟨full, hfull, hrow⟩ := Exec.bind_eq_ok.1 hrow
  obtain ⟨rfl, rfl⟩ := Prod.mk.inj (Except.ok.inj hrow)
  have hvalue : ((attrvalToDbIndex ctx.plugins av GLITE_JPIS_INDEX_LENGTH).getD nullText).length ≤
      255 := by
    rw [attrvalToDbIndex, hplugins]
    change ((fbToDbIndex av GLITE_JPIS_INDEX_LENGTH).getD nullText).length ≤ 255
    rw [fbToDbIndex]
    split_ifs
    · decide
    · exact List.length_take_le _ _
  refine ⟨?_, hvalue⟩
  have htext : (full.getD nullText).length < 2 ^ 24 := by
    rcases full with _ | full
    · decide
    · exact hfits full hfull
  rw [Widths.attrRow, w.name_eq _ hvalue, w.text_eq _ htext]

/-- A value that fits is stored as if nothing was cut. -/
theorem updateAttr_simulates (hplugins : ctx.plugins = []) (hv : attr.Sendable ctx)
    (hfits : isKnown ctx.conf attr.name = true → ∀ av full, soapToAttrVal attr = .ok (some av) →
      attrvalToDbFull ctx.plugins ctx.b64 av = .ok (some full) → full.length < 2 ^ 24) :
    Simulates w.Cuts (w.updateAttr ctx fails i j jobid attr)
      (updateAttr ctx fails i j jobid attr) := by
  refine simulates_liftExec_bind fun o ho => ?_
  split_ifs with hknown
  · refine simulates_liftExec_bind fun av hav => ?_
    obtain rfl := Exec.deref_eq_ok.1 hav
    refine simulates_liftExec_bind fun x hrow => ?_
    obtain ⟨row, value⟩ := x
    obtain ⟨hcut, hlen⟩ := @attrRow_of_fits w _ _ _ _ _ hplugins
      (fun full => hfits hknown av full ho) hrow
    refine .bind (simulates_expectOne fun db wide h db' hdb => ?_) fun _ => ?_
    · obtain rfl := (Prod.mk.inj (Option.some.inj hdb)).2
      refine ⟨_, rfl, h.jobs, h.feeds, ?_, h.users, h.sources⟩
      rw [hcut, insertValueRow, insertValueRow, h.values]
    · split_ifs with hcol
      · refine simulates_expectOne fun db wide h db' hdb => ?_
        rw [soapToAttrVal_name ho] at hcol
        rw [execUpdate_of_fits (fun _ => isHexDigit_of_mem_attr2id)
          (verbatim_of_attrvalRow hplugins hv hcol ho hrow) hlen] at hdb
        exact cuts_execUpdate h hdb
      · exact .pure _
  · exact .pure _

theorem updateAttrs_simulates (hplugins : ctx.plugins = []) (hvs : ∀ v ∈ attrs, v.Sendable ctx)
    (hfits : ∀ v ∈ attrs, isKnown ctx.conf v.name = true → ∀ av full,
      soapToAttrVal v = .ok (some av) → attrvalToDbFull ctx.plugins ctx.b64 av = .ok (some full) →
        full.length < 2 ^ 24) :
    Simulates w.Cuts (w.updateAttrs ctx fails i jobid j attrs)
      (updateAttrs ctx fails i jobid j attrs) := by
  induction attrs generalizing j with
  | nil => exact .pure _
  | cons attr attrs ih =>
    rw [List.forall_mem_cons] at hvs hfits
    exact (updateAttr_simulates hplugins hvs.1 hfits.1).bind fun _ => ih hvs.2 hfits.2

/-- A record that fits is stored as if nothing was cut. -/
theorem updateJob_simulates (hplugins : ctx.plugins = []) (hvs : ∀ v ∈ r.attributes, v.Sendable ctx)
    (hfits : r.Fits ctx) (hps : w.name ps = ps) :
    Simulates w.Cuts (w.updateJob ctx fails i ps r) (updateJob ctx fails i ps r) := by
  rw [Widths.updateJob, updateJob]
  split_ifs
  · exact .throw _
  · exact (lazyInsertJob_simulates hfits.jobid hps).bind fun _ =>
      updateAttrs_simulates hplugins hvs hfits.text

theorem updateRecords_simulates (hplugins : ctx.plugins = [])
    (hvs : ∀ r ∈ rs, ∀ v ∈ r.attributes, v.Sendable ctx) (hfits : ∀ r ∈ rs, r.Fits ctx)
    (hps : w.name ps = ps) :
    Simulates w.Cuts (w.updateRecords ctx fails ps i rs) (updateRecords ctx fails ps i rs) := by
  induction rs generalizing i with
  | nil => exact .pure _
  | cons r rs ih =>
    rw [List.forall_mem_cons] at hvs hfits
    exact (updateJob_simulates hplugins hvs.1 hfits.1 hps).bind fun _ => ih hvs.2 hfits.2

/-- Marking a feed done leaves the addresses of the primary storages. -/
theorem markDone_simulates {feed : FeedRow} {feedDone : Bool} :
    Simulates w.Cuts (markDone fails feed feedDone) (markDone fails feed feedDone) := by
  unfold markDone
  split_ifs
  · refine simulates_expectOne fun db wide h db' hdb => ?_
    obtain ⟨hcount, rfl⟩ := Prod.mk.inj (Option.some.inj hdb)
    rw [h.feeds] at hcount
    refine ⟨_, congrArg some (Prod.ext hcount rfl), h.jobs, ?_, h.values, h.users, fun r hr => ?_⟩
    · exact congrArg (fun feeds : Table FeedRow FeedRow.Clash =>
        feeds.update _ (FeedRow.clash_setState _ _)) h.feeds
    · obtain ⟨r', hr', rfl⟩ := List.mem_map.1 hr
      rw [FeedRow.source_setState, h.sources r' hr']
  · exact .pure _

/-- A call whose records fit stores them as if nothing was cut, but for the names of the
    owners. -/
theorem updateJobs_simulates {msg : UpdateJobs} (hplugins : ctx.plugins = [])
    (hvs : ∀ r ∈ msg.jobAttributes, ∀ v ∈ r.attributes, v.Sendable ctx)
    (hfits : ∀ r ∈ msg.jobAttributes, r.Fits ctx) :
    Simulates w.Cuts (w.updateJobs ctx fails msg) (updateJobs ctx fails msg) := by
  intro db wide hdb a db' hok
  obtain ⟨feed, db₁, hfeed, hrest⟩ := bind_eq_ok.1 hok
  have hselect : feed ∈ db.feeds.rows ∧ db₁ = db ∧
      selectInfoFeed fails msg.feedId wide = .ok feed wide := by
    unfold selectInfoFeed at hfeed ⊢
    rw [IndexDb.feed] at hfeed ⊢
    rw [← hdb.feeds]
    split at hfeed
    · rename_i r hr
      obtain ⟨rfl, rfl⟩ := EStateM.Result.ok.inj hfeed
      split_ifs at hr
      exact ⟨List.mem_of_find?_eq_some hr, rfl, rfl⟩
    · cases hfeed
  obtain ⟨hmem, rfl, hwide⟩ := hselect
  obtain ⟨wide', hrecords, hcuts⟩ := (markDone_simulates.bind fun _ =>
    updateRecords_simulates hplugins hvs hfits (hdb.sources feed hmem)) db₁ wide hdb a db' hrest
  exact ⟨wide', bind_eq_ok.2 ⟨feed, wide, hwide, hrecords⟩, hcuts⟩

end Cuts

/-! ## The answers -/

section Answers

variable {w : Widths} {ctx : IndexContext} {db wide : IndexDb} {rs : List JobRecord}

/-- What fits is stored as in the server whose columns hold everything, but for the names
    of the owners. -/
theorem reachable_of_fits {ok : FedStep → Prop} (hplugins : ctx.plugins = [])
    (hok : ∀ a, ok a → a.Sendable ctx) {s : IndexDb × List JobRecord}
    (hs : (w.fedSystem ctx).Reachable (fun _ a => ok a ∧ a.Fits ctx) s) :
    ∃ t, (fedSystem ctx).Reachable (fun _ a => ok a) t ∧ w.Cuts s.1 t.1 ∧ s.2 = t.2 := by
  refine @System.Reachable.simulated _ _ _ _ _ _ _ _ (fun s t => w.Cuts s.1 t.1 ∧ s.2 = t.2) _ hs
    (fun s h₀ => ⟨s, h₀.1, ?_, rfl⟩) fun s t a s' hst ha hstep => ?_
  · refine ⟨rfl, rfl, rfl, ?_, h₀.2⟩
    rw [h₀.1.2.1]
    rfl
  · obtain ⟨hcuts, hrecords⟩ := hst
    cases a with
    | call a =>
      obtain ⟨hcall, hrs⟩ := hstep
      obtain ⟨wide', hwide, hcuts'⟩ :=
        updateJobs_simulates hplugins (hok _ ha.1) ha.2 s.1 t.1 hcuts () s'.1 hcall
      exact ⟨.call a, (wide', t.2 ++ a.msg.jobAttributes), ha.1, ⟨hwide, rfl⟩, hcuts',
        hrecords ▸ hrs⟩
    | feeds =>
      obtain ⟨hsources, feeds, rfl⟩ := hstep
      exact ⟨.feeds, ({ t.1 with feeds }, t.2), ha.1, ⟨feeds, rfl⟩,
        ⟨hcuts.jobs, rfl, hcuts.values, hcuts.users, hsources⟩, hrecords⟩

/-- Of the users, only the names are cut. -/
theorem hasOwners_of_cuts (h : w.Cuts db wide) (howners : HasOwners wide) : HasOwners db := by
  intro job hjob
  obtain ⟨user, huser, hid⟩ := howners job (h.jobs ▸ hjob)
  exact ⟨w.user user, h.users ▸ List.mem_map_of_mem huser, hid⟩

theorem fedInvariant_of_cuts (h : w.Cuts db wide) (hfed : FedInvariant ctx (wide, rs)) :
    FedInvariant ctx (db, rs) where
  sendable := hfed.sendable
  jobid := hfed.jobid
  values id := h.values ▸ hfed.values id
  jobs job hjob := hfed.jobs job (h.jobs ▸ hjob)

/-- What is fed is what is answered, when it fits. -/
theorem answers_of_reachable (w : Widths) (ctx : IndexContext)
    (fromDb : TplugData → Option (Bytes → Exec Attrval))
    (hplugins : ctx.plugins = []) (hb : ctx.b64.Lawful) {s : IndexDb × List JobRecord}
    (hs : (w.fedSystem ctx).Reachable (fun _ a => a.Sendable ctx ∧ a.Fits ctx) s) (req : QueryJobs)
    (hnodup : req.attributes.Nodup) (hjobs : Set.InjOn ctx.md5 (jobidsOf s.2))
    (hnames : Set.InjOn ctx.md5 (namesOf s.2 req)) :
    (∀ answers, indexQueryJobs ctx fromDb s.1 req = .ok answers →
      ∀ answer ∈ answers, ∃ jobid, AnswersDelivered s.2 req jobid answer.1) ∧
    ((w.fedSystem ctx).Reachable
        (fun _ a => (a.Sendable ctx ∧ a.FindsOwners) ∧ a.Fits ctx) s →
      none ∉ req.attributes → Admitted ctx s.1 req → ∀ rows, getJobids ctx s.1 req.conditions = .ok rows →
        ∃ answers, indexQueryJobs ctx fromDb s.1 req = .ok answers ∧
          answers.map (fun answer => (answer.1.jobid, answer.2)) =
            rows.map fun row => (some row.1, row.2)) := by
  have hfed : FedInvariant ctx s := by
    obtain ⟨t, ht, hcuts, hrs⟩ := reachable_of_fits hplugins (fun _ h => h) hs
    exact fedInvariant_of_cuts hcuts (hrs ▸ fed_of_reachable hplugins ht)
  have hanswers := @answers_of_fed ctx fromDb req hplugins hb s hfed hnodup hjobs hnames
  refine ⟨hanswers.1, fun hs' => hanswers.2 ?_⟩
  obtain ⟨t, ht, hcuts, -⟩ := reachable_of_fits hplugins (fun _ h => h.1) hs'
  exact hasOwners_of_cuts hcuts (hasOwners_of_reachable hplugins ht)

end Answers

/-- A message with two values of an attribute, in whose names the case differs. -/
def fedUpdate : UpdateJobs := sampleUpdate [sampleColor (ascii "red"),
  { sampleColor (ascii "blue") with name := ascii "urn:app:Color", originDetail := some [] }]

/-- The server that gets it. -/
def freshServer : IndexDb := { sampleFed with jobs := .empty, users := .empty }

/-- The query for the jobs that are red, and all of their colors. -/
def fedQuery : QueryJobs := ⟨[colorCondition], [some sampleAttr]⟩

/-- A string without an origin detail is sendable, when the jobs have no column for it. -/
theorem sendable_color {ctx : IndexContext} {v : AttrValue} {color : Bytes}
    (hname : 0 ∉ v.name) (hvalue : v.value = some (.string color)) (hcolor : 0 ∉ color)
    (htime : v.timestamp = 0) (hdetail : v.originDetail.getD [] = [])
    (hcol : hasColumn ctx.conf v.name = false) : v.Sendable ctx where
  name_nul := hname
  value_nul s hs := by
    obtain rfl := StringOrBlob.string.inj (Option.some.inj (hvalue.symm.trans hs))
    exact hcolor
  size_lt bs hbs := by
    rw [hvalue] at hbs
    cases hbs
  detail_nul d hd := by
    rw [Option.mem_def.1 hd, Option.getD_some] at hdetail
    rw [hdetail]
    exact List.not_mem_nil
  time_ge := by omega
  time_lt := by omega
  harmless h := absurd (hcol.symm.trans h) Bool.false_ne_true

theorem sendable_fedUpdate : FedStep.Sendable (sampleServer true) (.call ⟨never, fedUpdate⟩) := by
  intro r hr v hv
  obtain rfl := List.mem_singleton.1 hr
  rcases List.mem_cons.1 hv with rfl | hv
  · exact sendable_color (by decide) rfl (by decide) rfl rfl rfl
  · obtain rfl := List.mem_singleton.1 hv
    exact sendable_color (by decide) rfl (by decide) rfl rfl rfl

/-- A value fits whose text is known and short. -/
theorem text_fits {ctx : IndexContext} {v : AttrValue} {text : Bytes}
    (h : (do attrvalToDbFull ctx.plugins ctx.b64 (← Exec.deref (← soapToAttrVal v))) =
      .ok (some text)) (hlen : text.length < 2 ^ 24) : ∀ av full, soapToAttrVal v = .ok (some av) →
    attrvalToDbFull ctx.plugins ctx.b64 av = .ok (some full) → full.length < 2 ^ 24 := by
  intro av full hav hfull
  rw [hav] at h
  obtain rfl := Option.some.inj (Except.ok.inj (hfull.symm.trans h))
  exact hlen

theorem fits_fedUpdate : ∀ r ∈ fedUpdate.jobAttributes, r.Fits (sampleServer true) := by
  intro r hr
  obtain rfl := List.mem_singleton.1 hr
  refine ⟨fun x hx => Option.some.inj hx ▸ by decide, fun v hv _ => ?_⟩
  rcases List.mem_cons.1 hv with rfl | hv
  · exact @text_fits _ _ (ascii "S:0:U::red") (by decide +kernel) (by decide)
  · obtain rfl := List.mem_singleton.1 hv
    exact @text_fits _ _ (ascii "S:0:U::blue") (by decide +kernel) (by decide)

/-- The server is fed a message that it stores. -/
theorem reachable_of_updateJobs {ctx : IndexContext} {msg : UpdateJobs}
    {ok : IndexDb × List JobRecord → FedStep → Prop}
    (h : Widths.bytes.updateJobs ctx never msg freshServer =
      .ok () (left (Widths.bytes.updateJobs ctx never msg freshServer)))
    (hok : ok (freshServer, []) (.call ⟨never, msg⟩)) : (Widths.bytes.fedSystem ctx).Reachable ok
      (left (Widths.bytes.updateJobs ctx never msg freshServer), msg.jobAttributes) := by
  refine System.Reachable.tail (.init ⟨⟨rfl, rfl, fun _ => rfl, rfl⟩, fun r hr => ?_⟩) hok ⟨h, rfl⟩
  obtain rfl := List.mem_singleton.1 hr
  decide +kernel

/-- One job is delivered. -/
theorem subsingleton_jobidsOf (r : JobRecord) : (jobidsOf [r]).Subsingleton := by
  rintro x ⟨r₁, hr₁, hx⟩ y ⟨r₂, hr₂, hy⟩
  obtain rfl := List.mem_singleton.1 hr₁
  obtain rfl := List.mem_singleton.1 hr₂
  exact Option.some.inj (hx.symm.trans hy)

/-- One attribute is delivered and asked for. -/
theorem subsingleton_namesOf {rs : List JobRecord} {req : QueryJobs} {name : Bytes}
    (hrs : ∀ r ∈ rs, ∀ v ∈ r.attributes, v.name.map tolower = name)
    (hreq : ∀ a ∈ req.attributes, a.map (List.map tolower) = some name) :
    (namesOf rs req).Subsingleton := by
  have hname : ∀ x ∈ namesOf rs req, x = name := by
    rintro x (⟨r, hr, v, hv, rfl⟩ | ⟨a, ha, rfl⟩)
    · exact hrs r hr v hv
    · exact Option.some.inj (hreq _ ha)
  exact fun x hx y hy => (hname x hx).trans (hname y hy).symm

/-- Both values are returned. -/
theorem answers_of_reachable_sample : ∃ s answers,
    (Widths.bytes.fedSystem (sampleServer true)).Reachable
      (fun _ a => a.Sendable (sampleServer true) ∧ a.Fits (sampleServer true)) s ∧
      indexQueryJobs (sampleServer true) (fun _ => none) s.1 fedQuery = .ok answers ∧
      answers.length = 1 ∧ ∀ answer ∈ answers, ∃ jobid, AnswersDelivered s.2 fedQuery jobid answer.1 := by
  have hok : Widths.bytes.updateJobs (sampleServer true) never fedUpdate freshServer =
      .ok () (left (Widths.bytes.updateJobs (sampleServer true) never fedUpdate freshServer)) :=
    eq_ok_left (by decide +kernel)
  have hnames : (namesOf fedUpdate.jobAttributes fedQuery).Subsingleton :=
    @subsingleton_namesOf _ _ sampleAttr (by decide) (by decide)
  have hfits : FedStep.Fits (sampleServer true) (.call ⟨never, fedUpdate⟩) := fits_fedUpdate
  have hreach : (Widths.bytes.fedSystem (sampleServer true)).Reachable
      (fun _ a => a.Sendable (sampleServer true) ∧ a.Fits (sampleServer true)) _ :=
    reachable_of_updateJobs hok ⟨sendable_fedUpdate, hfits⟩
  have hanswers := answers_of_reachable .bytes (sampleServer true) (fun _ => none) rfl
    Base64.standard_lawful hreach fedQuery (List.nodup_singleton _)
    ((subsingleton_jobidsOf _).injOn _) (hnames.injOn _)
  obtain ⟨answers, hquery, hmap⟩ := hanswers.2
    (reachable_of_updateJobs hok ⟨⟨sendable_fedUpdate, fun _ => rfl⟩, hfits⟩) (by decide)
    ⟨by decide +kernel, by decide +kernel⟩ [(ascii "https://lb/new", ascii "https://ps")]
    (by decide +kernel)
  refine ⟨_, answers, hreach, hquery, ?_, hanswers.1 answers hquery⟩
  simpa using congrArg List.length hmap

/-- A hash that tells long strings from short ones. -/
def longMd5 (s : Bytes) : Bytes :=
  if s.length ≤ 255 then sampleMd5 s else ascii "5d41402abc4b2a76b9719d911017c592"

theorem isMd5_longMd5 : IsMd5 longMd5 where
  length s := by
    unfold longMd5
    split_ifs
    · exact isMd5_sampleMd5.length s
    · decide
  digits s := by
    unfold longMd5
    split_ifs
    · exact isMd5_sampleMd5.digits s
    · exact List.all_eq_true.1 (by decide)

/-- A server with that hash. -/
def longServer : IndexContext :=
  { sampleServer true with md5 := longMd5, isMd5 := isMd5_longMd5 }

/-- The identifier of a job, one byte too long for its column. -/
def longJobid : Bytes := List.replicate 256 (ch 'j')

/-- A message with that job, which is red. -/
def longUpdate : UpdateJobs :=
  { sampleUpdate [] with
    jobAttributes := [⟨some longJobid, some (ascii "/CN=bob"), [sampleColor (ascii "red")], none⟩] }

theorem sendable_longUpdate : FedStep.Sendable longServer (.call ⟨never, longUpdate⟩) := by
  intro r hr v hv
  obtain rfl := List.mem_singleton.1 hr
  obtain rfl := List.mem_singleton.1 hv
  exact sendable_color (by decide) rfl (by decide) rfl rfl rfl

/-- The job is stored and the query selects it, but under the identifier that was cut
    nothing is found, and the query fails. -/
theorem not_answered_longJob : ∃ s, (Widths.bytes.fedSystem longServer).Reachable
      (fun _ a => a.Sendable longServer ∧ a.FindsOwners) s ∧
    Set.InjOn longServer.md5 (jobidsOf s.2) ∧ Set.InjOn longServer.md5 (namesOf s.2 fedQuery) ∧
    fedQuery.attributes.Nodup ∧ none ∉ fedQuery.attributes ∧ Admitted longServer s.1 fedQuery ∧
    getJobids longServer s.1 fedQuery.conditions =
      .ok [(longJobid.take 255, ascii "https://ps")] ∧
    ∀ answers, indexQueryJobs longServer (fun _ => none) s.1 fedQuery ≠ .ok answers := by
  have hok : Widths.bytes.updateJobs longServer never longUpdate freshServer =
      .ok () (left (Widths.bytes.updateJobs longServer never longUpdate freshServer)) :=
    eq_ok_left (by decide +kernel)
  have hnames : (namesOf longUpdate.jobAttributes fedQuery).Subsingleton :=
    @subsingleton_namesOf _ _ sampleAttr (by decide) (by decide)
  refine ⟨_, reachable_of_updateJobs hok ⟨sendable_longUpdate, fun _ => rfl⟩,
    (subsingleton_jobidsOf _).injOn _, hnames.injOn _, List.nodup_singleton _, by decide,
    ⟨by decide +kernel, by decide +kernel⟩, by decide +kernel, fun answers h => ?_⟩
  have hfails : (indexQueryJobs longServer (fun _ => none)
      (left (Widths.bytes.updateJobs longServer never longUpdate freshServer)) fedQuery).isOk =
      false := by
    decide +kernel
  exact Bool.false_ne_true (hfails.symm.trans (congrArg Except.isOk h))

end JobProvenance
