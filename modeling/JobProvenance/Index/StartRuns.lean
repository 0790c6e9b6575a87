import JobProvenance.Index.Server
import JobProvenance.Index.Startup

/-!
# Starting the index server again and again

A start may fail at any statement, be killed at any time, and be followed by others with
other configurations and other options; in between a server runs and stores what it is sent.

* `startsFresh`: a start with `-D` of a configuration with plugins and with an attribute that
  has an index succeeds when no statement fails, and when one succeeds the database is that of
  its configuration;
* `firstStart`: the first start of such a configuration after the database was set up fails
  without `-D`, and those that follow succeed with the table of the jobs that was set up;
* `complete_of_reachable`: after a start with `-D` has succeeded, and until the next one, the
  tables are those of its configuration;
* `never_starts`: without a table of the jobs no start succeeds any more.
-/

namespace JobProvenance

open Stateful

/-! ## When nothing fails -/

/-- No statement fails by itself. -/
def allDone : ℕ → Fate := fun _ => .done

section Done

variable {α : Type} {perform : Connection → Option (α × Connection)} {s t u : Connection} {a : α}
  {e : StartFailure} {conf : SchemaConf} {calls : List SetupCall}

theorem call_done (h : perform s.next = some (a, u)) :
    s.call allDone perform = (some a, u) := by
  simp only [Connection.call, allDone, h]

theorem call_done_none (h : perform s.next = none) :
    s.call allDone perform = (none, s.next) := by
  simp only [Connection.call, allDone, h]

theorem mustCall_done (h : perform s.next = some (a, u)) :
    mustCall allDone e perform s = .ok a u := by
  rw [mustCall, bind_eq, dbCall, call_done h]
  rfl

/-- Of a table that was dropped there is nothing, whether it was there or not. -/
theorem call_drop_done {f : StartDb → α × Connection} (hf : ∀ d, (f d).2.db = d) {name : Bytes}
    (h : perform s.next = (s.db.dropTable name).map f) :
    (s.call allDone perform).2.db.tables name = none := by
  cases hd : s.db.dropTable name with
  | none =>
    rw [hd] at h
    rw [call_done_none h]
    unfold StartDb.dropTable at hd
    split_ifs at hd with hsome
    exact Option.not_isSome_iff_eq_none.1 hsome
  | some d =>
    rw [hd] at h
    rw [call_done h, hf, ← dropTable_eq_some hd]
    exact Function.update_self ..

theorem demand_done {c : SetupCall} {answer : Bytes} (code : ℕ) (desc : Bytes)
    (h : c.perform (s.after allDone calls).next = some (answer, u)) :
    demand (s.answering allDone) c code desc calls = .ok answer (calls ++ [c]) ∧
      s.after allDone (calls ++ [c]) = u := by
  have hanswer : s.answering allDone calls c = some answer := by
    rw [Connection.answering, call_done h]
  refine ⟨?_, by rw [after_append, call_done h]⟩
  rw [demand, bind_eq, ask, hanswer]
  rfl

theorem after_dropDataTable {id : Bytes} (hlen : id.length = 32) (calls : List SetupCall) :
    (s.after allDone (calls ++
      [.execSQL (snprintf SQL_SIZE (dropDataTable id))])).db.tables (attrTable id) = none := by
  have hperform := perform_drop (s.after allDone calls).next (attrTable id)
  rw [← dropDataTable_eq hlen, next_db] at hperform
  rw [after_append]
  exact call_drop_done (fun _ => rfl) hperform

theorem perform_create_done {name : Bytes} (hname : ch ' ' ∉ name) {t : Connection}
    (hnone : t.db.tables name = none) {rest : Bytes}
    (hcloses : StartDb.closesColumns (ascii "CREATE TABLE " ++ (name ++ ch ' ' :: rest)) = true) :
    ∃ u, SetupCall.perform (.execSQL (ascii "CREATE TABLE " ++ (name ++ ch ' ' :: rest))) t =
      some ([], u) := by
  rw [perform_create hname, createTable_eq_some.2 ⟨⟨hnone, hcloses⟩, rfl⟩]
  exact ⟨_, rfl⟩

/-- An attribute that is new gets its table. -/
theorem initAttr_done (hmd5 : IsMd5 conf.md5) (hindexes : conf.indexedAttrs ≠ []) {attr : Bytes}
    (hcloses : StartDb.closesColumns (dataTableSql conf attr) = true)
    (hnew : attr2id conf.md5 attr ∉
      (s.after allDone calls).db.rows.attrs.map AttrsRow.attrid) :
    ∃ calls', initAttr conf attr (s.answering allDone) calls = .ok () calls' := by
  have hlen : (attr2id conf.md5 attr).length = 32 := hmd5.length _
  have hdigits : ∀ b ∈ attr2id conf.md5 attr, isHexDigit b = true := hmd5.digits _
  have hinsert : (SetupCall.execPreparedStmt (attr2id conf.md5 attr) attr (indexed conf attr)
      (attrvalDbTypeFull conf.plugins attr)).perform (s.after allDone calls).next = some (_, _) :=
    Option.map_eq_some_iff.2 ⟨_, insertAttr_eq_some.2 ⟨hnew, rfl⟩, rfl⟩
  obtain ⟨hdemand, -⟩ := demand_done SetupError.EIO
    (ascii "can't create '" ++ attr ++ ascii "' attribute") hinsert
  generalize calls ++ _ = calls₁ at hdemand
  -- the table is not there when it is to be made
  obtain ⟨rest, hrest⟩ := exists_dataTableSql hmd5 attr
  obtain ⟨u, hcreate⟩ := perform_create_done (notMem_attrTable hdigits)
    (t := (s.after allDone _).next) (after_dropDataTable hlen calls₁) (hrest ▸ hcloses)
  rw [← hrest] at hcreate
  obtain ⟨hdemand', -⟩ := demand_done SetupError.EAGAIN
    (ascii "if the atribute table already exists, restart may help") hcreate
  rw [initAttr, isIndexed_of_ne_nil conf attr hindexes]
  exact ⟨_, (bind_of_ok (liftM_ok _)).trans ((bind_of_ok hdemand).trans ((bind_of_ok rfl).trans
    ((bind_of_ok hdemand').trans rfl)))⟩

/-- Attributes that are new, and no two of which have the same identifier, get theirs. -/
theorem initAttrs_done (hmd5 : IsMd5 conf.md5) (hindexes : conf.indexedAttrs ≠ [])
    {attrs : List Bytes}
    (hcloses : ∀ attr ∈ attrs, StartDb.closesColumns (dataTableSql conf attr) = true)
    (hdistinct : (attrs.map (attr2id conf.md5)).Nodup)
    (hnew : ∀ attr ∈ attrs, attr2id conf.md5 attr ∉
      (s.after allDone calls).db.rows.attrs.map AttrsRow.attrid) :
    ∃ calls', attrs.forM (initAttr conf · (s.answering allDone)) calls = .ok () calls' := by
  induction attrs generalizing calls with
  | nil => exact ⟨calls, rfl⟩
  | cons attr attrs ih =>
    obtain ⟨hnot, hdistinct⟩ := List.nodup_cons.1 hdistinct
    obtain ⟨hattr, hattrs⟩ := List.forall_mem_cons.1 hnew
    obtain ⟨hclosed, hcloses⟩ := List.forall_mem_cons.1 hcloses
    obtain ⟨calls₁, hfirst⟩ := initAttr_done hmd5 hindexes hclosed hattr
    obtain ⟨calls₂, hrest⟩ := @ih calls₁ hcloses hdistinct fun a ha => by
      rw [(initAttr_after hmd5 hfirst).2, StartDb.withAttr_attrs, List.map_append, List.mem_append,
        not_or]
      refine ⟨hattrs a ha, fun h => hnot ?_⟩
      exact List.mem_map.2 ⟨a, ha, List.mem_singleton.1 h⟩
    exact ⟨calls₂, (bind_of_ok hfirst).trans hrest⟩

/-- The attributes are counted. -/
theorem count_done (s : Connection) {β : Type} (f : Bytes → Setup β) :
    ∃ calls, (s.after allDone calls).db = s.db ∧
      (demand (s.answering allDone) countAttrs SetupError.EIO
          (ascii "error during counting attrs") >>= fun _ =>
        demand (s.answering allDone) .fetchRow SetupError.EIO
          (ascii "error during fetching attrs") >>= f) [] =
        f (printNat s.db.rows.attrs.length) calls := by
  obtain ⟨hcount, hcounted⟩ := demand_done SetupError.EIO (ascii "error during counting attrs")
    (perform_count (s.after allDone []).next)
  rw [List.nil_append] at hcount hcounted
  have hcursor : (s.after allDone [countAttrs]).cursor = [printNat s.db.rows.attrs.length] := by
    rw [hcounted]
    rfl
  have hrow := perform_fetchRow (s.after allDone [countAttrs]).next
  rw [next_cursor, hcursor, List.head?_cons, Option.map_some] at hrow
  obtain ⟨hfetch, hfetched⟩ := demand_done SetupError.EIO (ascii "error during fetching attrs") hrow
  refine ⟨_, ?_, (bind_of_ok hcount).trans (bind_of_ok hfetch)⟩
  rw [hfetched, next_db, hcounted]
  rfl

/-- `initDatabase` leaves a database with attributes as it is. -/
theorem initDatabase_keep_done (hne : atoi (printNat s.db.rows.attrs.length) ≠ 0) :
    ∃ calls, initDatabase conf (s.answering allDone) [] = .ok () calls := by
  obtain ⟨calls, -, hcount⟩ := count_done s fun num : Bytes => _
  exact ⟨calls, hcount.trans (by rw [if_pos hne]; rfl)⟩

/-- Where there are no attributes, all tables of values are made, and then that of the jobs is
    to be. -/
theorem initDatabase_make_done (hmd5 : IsMd5 conf.md5) (hindexes : conf.indexedAttrs ≠ [])
    (hcloses : ∀ attr ∈ conf.attrs, StartDb.closesColumns (dataTableSql conf attr) = true)
    (hattrs : s.db.rows.attrs = []) (hdistinct : (conf.attrs.map (attr2id conf.md5)).Nodup) :
    ∃ calls, (s.after allDone calls).db = conf.attrs.foldl (·.withAttr conf) s.db ∧
      initDatabase conf (s.answering allDone) [] =
        (demand (s.answering allDone) (.execSQL (jobsSql conf)) SetupError.EAGAIN
          (ascii "Cannot create table 'jobs'!") >>= fun _ => pure ()) calls := by
  obtain ⟨calls₂, hsame, hcount⟩ := count_done s fun num : Bytes => _
  obtain ⟨hprepare, hprepared⟩ := demand_done SetupError.EIO
    (ascii "can't create insert attributes statement") (perform_prepareStmt
      (ascii "INSERT INTO attrs (attrid, name, indexed, type) VALUES (?, ?, ?, ?)")
      (s.after allDone calls₂).next)
  have hdb : (s.after allDone (calls₂ ++ [.prepareStmt
      (ascii "INSERT INTO attrs (attrid, name, indexed, type) VALUES (?, ?, ?, ?)")])).db =
        s.db := by
    rw [hprepared, next_db, hsame]
  obtain ⟨calls₄, hmade⟩ := initAttrs_done hmd5 hindexes hcloses hdistinct fun attr _ => by
    rw [hdb, hattrs]
    exact List.not_mem_nil
  refine ⟨calls₄, by rw [(initAttrs_after hmd5 hmade).2.2, hdb], hcount.trans ?_⟩
  rw [hattrs, if_neg (by decide)]
  refine (bind_of_ok hprepare).trans ((bind_of_ok hmade).trans ?_)
  rw [createJobsSql_eq conf fun _ => hindexes]
  exact bind_of_ok (liftM_ok _)

theorem prepares_done {tables : List Bytes} (h : ∀ table ∈ tables, s.db.hasTable table = true) :
    ∃ t, tables.forM (fun table => mustCall allDone e (Connection.prepareStmt table)) s =
      .ok () t := by
  induction tables generalizing s with
  | nil => exact ⟨s, rfl⟩
  | cons table tables ih =>
    obtain ⟨hhas, hrest⟩ := List.forall_mem_cons.1 h
    have hprepare : s.next.prepareStmt table = some ((), s.next) := if_pos hhas
    obtain ⟨t, ht⟩ := ih (s := s.next) hrest
    exact ⟨t, (bind_of_ok (mustCall_done hprepare)).trans ht⟩

theorem initDb_done (h : s.db.tables (ascii "jobs") ≠ none) :
    ∃ t, initDb allDone s = .ok () t ∧ t.db = s.db := by
  have hhas : ∀ table ∈ preparedTables, s.next.db.hasTable table = true := by
    have hjobs : s.db.hasTable (ascii "jobs") = true := by
      rw [StartDb.hasTable, Option.isSome_iff_ne_none.2 h, Bool.or_true]
    simp only [preparedTables, List.forall_mem_cons, next_db, hjobs, true_and]
    simp [StartDb.hasTable]
  obtain ⟨t, ht⟩ := prepares_done hhas
  have hinit : initDb allDone s = .ok () t := (bind_of_ok (mustCall_done rfl)).trans ht
  exact ⟨t, hinit, (initDb_eq_ok hinit).1⟩

theorem dropDataTables_done (attrids : List Bytes) :
    ∃ t, dropDataTables allDone attrids s = .ok () t := by
  induction attrids generalizing s with
  | nil => exact ⟨_, (bind_of_ok (mustCall_done rfl)).trans rfl⟩
  | cons attrid attrids ih =>
    obtain ⟨t, ht⟩ := ih
    exact ⟨t, (bind_of_ok (mustCall_done rfl)).trans ((bind_of_ok rfl).trans ht)⟩

theorem execSQL_done {sql : Bytes} {d : StartDb} (h : s.db.execSql sql = some d) :
    s.execSQL sql = some ((), { s with db := d }) := execSQL_eq_some.2 ⟨d, h, rfl⟩

/-- The table of the jobs is dropped. -/
theorem dropDatabase_done (s : Connection) :
    ∃ t, dropDatabase allDone s = .ok () t ∧ t.db.tables (ascii "jobs") = none := by
  have hprepare : s.next.prepareStmt (ascii "attrs") = some ((), s.next) := if_pos rfl
  obtain ⟨s₁, hdrop⟩ := dropDataTables_done (s := { s.next.next with
    cursor := s.db.rows.attrs.map AttrsRow.attrid }) (s.db.rows.attrs.map AttrsRow.attrid)
  let s₂ := (s₁.call allDone (Connection.execSQL (ascii "DROP TABLE jobs"))).2
  have hnone : s₂.db.tables (ascii "jobs") = none := by
    refine call_drop_done (f := fun db => ((), { s₁.next with db })) (fun _ => rfl) ?_
    rw [Connection.execSQL, show ascii "DROP TABLE jobs" = ascii "DROP TABLE " ++ ascii "jobs" by
      decide, execSql_drop, next_db]
  refine ⟨_, (bind_of_ok (mustCall_done hprepare)).trans ((bind_of_ok (mustCall_done rfl)).trans
    ((bind_of_ok hdrop).trans ((bind_of_ok rfl).trans
      ((bind_of_ok (mustCall_done (execSQL_done (execSql_deleteAttrs _)))).trans
        ((bind_of_ok (mustCall_done (execSQL_done (execSql_deleteFeeds _)))).trans
          ((bind_of_ok (mustCall_done (execSQL_done (execSql_deleteUsers _)))).trans
            (mustCall_done (execSQL_done (execSql_deleteAcls _))))))))), hnone⟩

/-- Feeds are stored when their conditions can be, as the numbers are new. -/
theorem insertFeeds_done {feeds : List StartFeed}
    (hfeeds : ∀ feed ∈ feeds, ∃ conds, dbQueriesSerialize feed.query = .ok conds)
    (hnew : ∀ r ∈ s.db.rows.feeds.rows, r.uniqueid < s.db.nextFeed) :
    ∃ ids t, feeds.mapM (insertFeed allDone) s = .ok ids t := by
  induction feeds generalizing s with
  | nil => exact ⟨[], s, rfl⟩
  | cons feed feeds ih =>
    obtain ⟨⟨conds, hconds⟩, hrest⟩ := List.forall_mem_cons.1 hfeeds
    have hinsert : s.db.rows.feeds.insert (feed.row s.db.nextFeed) ≠ none := fun hnone => by
      obtain ⟨r, hr, heq | ⟨hne, heq⟩⟩ := Table.insert_eq_none.1 hnone
      · exact (hnew r hr).ne heq
      · exact hne heq
    obtain ⟨table, htable⟩ := Option.ne_none_iff_exists'.1 hinsert
    have hfirst : ∃ u t, insertFeed allDone feed s = .ok u t := by
      have hdone : s.next.db.insertFeed feed.state feed.psUrl conds = some (_, _) :=
        Option.map_eq_some_iff.2 ⟨table, htable, rfl⟩
      unfold insertFeed
      rw [hconds]
      exact ⟨_, _, mustCall_done (Option.map_eq_some_iff.2 ⟨_, hdone, rfl⟩)⟩
    obtain ⟨u, t, hfeed⟩ := hfirst
    obtain ⟨hadded, hnext, rfl⟩ := insertFeed_eq_ok hfeed
    obtain ⟨us, t', hus⟩ := ih (s := t) hrest fun r hr => by
      rw [hadded.rows] at hr
      rcases List.mem_append.1 hr with hr | hr
      · exact (hnew r hr).trans (by omega)
      · rw [List.mem_singleton.1 hr]
        exact hnext ▸ Nat.lt_succ_self _
    rw [List.mapM_cons]
    exact ⟨_, t', (bind_of_ok hfeed).trans ((bind_of_ok hus).trans rfl)⟩

theorem initDatabaseFeeds_done {feeds : List StartFeed}
    (hfeeds : ∀ feed ∈ feeds, ∃ conds, dbQueriesSerialize feed.query = .ok conds) :
    ∃ ids t, initDatabaseFeeds allDone feeds s = .ok ids t := by
  have hdelete := execSQL_done (s := s.next) (execSql_deleteFeeds _)
  obtain ⟨ids, t, hids⟩ := insertFeeds_done hfeeds (s := { s.next with
    db := { s.db with rows := { s.db.rows with feeds := .empty },
                      conditions := fun _ => none } }.next) (List.forall_mem_nil _)
  exact ⟨ids, t, (bind_of_ok (mustCall_done hdelete)).trans
    ((bind_of_ok (mustCall_done (if_pos rfl))).trans hids)⟩

theorem loadPlugins_done {conf : StartConf} (h : conf.pluginFiles ≠ []) :
    loadPlugins conf s = .ok () s := by
  rw [loadPlugins, if_neg h, pure_apply]

theorem setup_of_ok {x : SetupDb → Setup α} (h : x (s.answering allDone) [] = .ok a calls) :
    setup allDone x s = .ok a (s.after allDone calls) := by
  unfold setup
  rw [h]

theorem setup_of_error {x : SetupDb → Setup α} {err : SetupError}
    (h : x (s.answering allDone) [] = .error err calls) :
    setup allDone x s = .error (.init err) (s.after allDone calls) := by
  unfold setup
  rw [h]

variable {conf : StartConf}

/-- A start with `-D` succeeds where there is a table of the jobs, if no statement fails, there
    are plugins and an attribute with an index, the statements fit, the attributes are different
    ones, and the conditions of the feeds can be stored. -/
theorem startServer_delete_done (hmd5 : IsMd5 conf.md5) (hdelete : conf.deleteDb = true)
    (hplugins : conf.pluginFiles ≠ []) (hindexes : conf.indexedAttrs ≠ []) (hfits : conf.Fits)
    (hdistinct : (conf.attrs.map (attr2id conf.md5)).Nodup)
    (hfeeds : ∀ feed ∈ conf.feeds, ∃ conds, dbQueriesSerialize feed.query = .ok conds)
    (hjobs : s.db.tables (ascii "jobs") ≠ none) :
    ∃ ids t, startServer allDone conf s = .ok ids t := by
  obtain ⟨s₁, hinit, -⟩ := initDb_done hjobs
  obtain ⟨s₂, hdrop, hnone⟩ := dropDatabase_done s₁
  obtain ⟨calls, hattrs, hsetup⟩ :=
    initDatabase_make_done hmd5 hindexes (fun _ => hfits.closes_values)
      (dropDatabase_eq_ok hdrop).1 hdistinct
  obtain ⟨rest, hrest⟩ := exists_jobsSql conf.toSchemaConf
  have hname : ch ' ' ∉ ascii "jobs" := by decide
  obtain ⟨u, hcreate⟩ := perform_create_done hname (t := (s₂.after allDone calls).next)
    (by rw [next_db, hattrs, foldl_withAttr_jobs, hnone]) (hrest ▸ hfits.closes_jobs)
  rw [← hrest] at hcreate
  obtain ⟨hdemand, -⟩ :=
    demand_done SetupError.EAGAIN (ascii "Cannot create table 'jobs'!") hcreate
  obtain ⟨ids, t, hstored⟩ := initDatabaseFeeds_done (s := s₂.after allDone _) hfeeds
  refine ⟨ids, t, ?_⟩
  unfold startServer
  rw [hdelete, if_pos rfl, Bool.true_or, if_pos rfl]
  exact (bind_of_ok hinit).trans ((bind_of_ok (loadPlugins_done hplugins)).trans
    ((bind_of_ok hdrop).trans
      ((bind_of_ok (setup_of_ok (hsetup.trans (bind_of_ok hdemand)))).trans hstored)))

/-- Wherever there is a table of the jobs, a start with `-D` of a configuration with plugins and
    with an attribute that has an index succeeds if no statement fails. Whatever was in the
    database, and whichever statements have failed: when it has succeeded, there are the empty
    tables of the configuration, and its feeds. -/
theorem startsFresh (hmd5 : IsMd5 conf.md5) (hdelete : conf.deleteDb = true)
    (hplugins : conf.pluginFiles ≠ []) (hindexes : conf.indexedAttrs ≠ []) (hfits : conf.Fits)
    (hdistinct : (conf.attrs.map (attr2id conf.md5)).Nodup)
    (hfeeds : ∀ feed ∈ conf.feeds, ∃ conds, dbQueriesSerialize feed.query = .ok conds)
    (hjobs : s.db.tables (ascii "jobs") ≠ none) :
    (∃ ids t, startServer allDone conf s = .ok ids t) ∧
      ∀ plan ids t, startServer plan conf s = .ok ids t → Fresh conf ids t.db :=
  ⟨startServer_delete_done hmd5 hdelete hplugins hindexes hfits hdistinct hfeeds hjobs,
    fun _ _ _ h => fresh_of_startServer hmd5 hdelete h⟩

/-- A start without `-D` and `-F` succeeds where there is a table of the jobs and attributes,
    whatever else is there, if no statement fails. -/
theorem startServer_keep_done (hdelete : conf.deleteDb = false) (hforce : conf.forceFeed = false)
    (hplugins : conf.pluginFiles ≠ []) (hjobs : s.db.tables (ascii "jobs") ≠ none)
    (hne : atoi (printNat s.db.rows.attrs.length) ≠ 0) :
    ∃ t, startServer allDone conf s = .ok [] t ∧ t.db = s.db := by
  obtain ⟨s₁, hinit, hsame⟩ := initDb_done hjobs
  obtain ⟨calls, hkeep⟩ := @initDatabase_keep_done s₁ conf.toSchemaConf (hsame ▸ hne)
  have hleft := @initDatabase_keeps allDone s₁ conf.toSchemaConf (hsame ▸ hne)
  rw [hkeep] at hleft
  refine ⟨s₁.after allDone calls, ?_, hleft.trans hsame⟩
  unfold startServer
  rw [hdelete, hforce]
  exact (bind_of_ok hinit).trans ((bind_of_ok (loadPlugins_done hplugins)).trans
    ((bind_of_ok (setup_of_ok hkeep)).trans rfl))

/-- The first start after the database was set up, which has made an empty table of the jobs,
    fails without `-D` when all is made but this table, where there are plugins and an attribute
    with an index. Every later one without `-D` and `-F`, of any configuration with plugins,
    succeeds, and the table is still the one that was set up. -/
theorem firstStart (hmd5 : IsMd5 conf.md5) (hdelete : conf.deleteDb = false)
    (hplugins : conf.pluginFiles ≠ []) (hindexes : conf.indexedAttrs ≠ []) (hfits : conf.Fits)
    (hdistinct : (conf.attrs.map (attr2id conf.md5)).Nodup) (hpos : 0 < conf.attrs.length)
    (hlt : conf.attrs.length < 2 ^ 31) (hattrs : s.db.rows.attrs = []) {sql : Bytes}
    (hjobs : s.db.tables (ascii "jobs") = some sql) :
    ∃ t, startServer allDone conf s =
        .error (.init (.failed SetupError.EAGAIN (ascii "Cannot create table 'jobs'!"))) t ∧
      t.db.tables (ascii "jobs") = some sql ∧
      ∀ conf' : StartConf, conf'.pluginFiles ≠ [] → conf'.deleteDb = false →
        conf'.forceFeed = false → ∃ u, startServer allDone conf' t = .ok [] u ∧ u.db = t.db := by
  obtain ⟨s₁, hinit, hsame⟩ := initDb_done (s := s) (by rw [hjobs]; exact Option.some_ne_none _)
  obtain ⟨calls, hmade, hsetup⟩ :=
    initDatabase_make_done (s := s₁) hmd5 hindexes (fun _ => hfits.closes_values)
      (hsame ▸ hattrs) hdistinct
  rw [hsame] at hmade
  have hsome : (s₁.after allDone calls).db.tables (ascii "jobs") = some sql := by
    rw [hmade, foldl_withAttr_jobs, hjobs]
  -- there is a table of the jobs already
  obtain ⟨rest, hrest⟩ := exists_jobsSql conf.toSchemaConf
  have hname : ch ' ' ∉ ascii "jobs" := by decide
  have hcreate : (SetupCall.execSQL (jobsSql conf.toSchemaConf)).perform
      (s₁.after allDone calls).next = none := by
    rw [hrest, perform_create hname, StartDb.createTable, next_db, hsome]
    rfl
  have hfails : ∃ calls', demand (s₁.answering allDone) (.execSQL (jobsSql conf.toSchemaConf))
      SetupError.EAGAIN (ascii "Cannot create table 'jobs'!") calls =
        .error (.failed SetupError.EAGAIN (ascii "Cannot create table 'jobs'!")) calls' ∧
      s₁.after allDone calls' = (s₁.after allDone calls).next := by
    have hanswer : s₁.answering allDone calls (.execSQL (jobsSql conf.toSchemaConf)) =
        none := by
      rw [Connection.answering, call_done_none hcreate]
    refine ⟨_, ?_, by rw [after_append, call_done_none hcreate]⟩
    rw [demand, bind_eq, ask, hanswer]
    rfl
  obtain ⟨calls', hdemand, hafter⟩ := hfails
  have hdb : (s₁.after allDone calls').db =
      conf.attrs.foldl (·.withAttr conf.toSchemaConf) s.db := by
    rw [hafter, next_db, hmade]
  refine ⟨s₁.after allDone calls', ?_, by rw [hafter, next_db, hsome],
    fun conf' hplugins' hdelete' hforce' =>
      startServer_keep_done hdelete' hforce' hplugins' ?_ ?_⟩
  · unfold startServer
    rw [hdelete]
    exact (bind_of_ok hinit).trans ((bind_of_ok (loadPlugins_done hplugins)).trans
      (bind_of_error (setup_of_error (hsetup.trans (bind_of_error hdemand)))))
  · rw [hafter, next_db, hsome]
    exact Option.some_ne_none _
  · rw [hdb, foldl_withAttr_attrs, hattrs, List.nil_append, List.length_map, atoi_printNat hlt]
    exact_mod_cast hpos.ne'

end Done

/-- A database as it is set up: there is a table of the jobs, without columns of attributes. -/
def setUpDb : StartDb where
  rows := ⟨.empty, .empty, .empty, [], fun _ => []⟩
  types _ := none
  conditions _ := none
  nextFeed := 1
  tables name := if name = ascii "jobs" then some (ascii "create table jobs") else none

/-- A server with one attribute, which has a column with an index. As in the configuration that
    comes with the server, the one plugin has an empty name and is not loaded. -/
def colorConf (deleteDb : Bool) : StartConf where
  attrs := [sampleAttr]
  multivalAttrs := []
  queriableAttrs := [sampleAttr]
  noAuth := false
  indexedAttrs := [sampleAttr]
  plugins := []
  md5 := sampleMd5
  pluginFiles := [[]]
  feeds := []
  deleteDb := deleteDb
  forceFeed := false

theorem colorConf_distinct (deleteDb : Bool) :
    ((colorConf deleteDb).attrs.map (attr2id (colorConf deleteDb).md5)).Nodup :=
  List.nodup_singleton _

theorem colorConf_fits (deleteDb : Bool) : (colorConf deleteDb).Fits where
  values := by cases deleteDb <;> decide +kernel
  jobs := by cases deleteDb <;> decide +kernel

theorem firstStart_sample : ∃ t, startServer allDone (colorConf false) ⟨setUpDb, [], 0⟩ =
      .error (.init (.failed SetupError.EAGAIN (ascii "Cannot create table 'jobs'!"))) t ∧
    t.db.tables (ascii "jobs") = some (ascii "create table jobs") ∧
    ∀ conf' : StartConf, conf'.pluginFiles ≠ [] → conf'.deleteDb = false →
      conf'.forceFeed = false → ∃ u, startServer allDone conf' t = .ok [] u ∧ u.db = t.db :=
  firstStart isMd5_sampleMd5 rfl (List.cons_ne_nil _ _) (List.cons_ne_nil _ _)
    (colorConf_fits false) (colorConf_distinct false) Nat.zero_lt_one (by decide) rfl (by decide)

theorem exists_start_delete : ∃ ids t, startServer allDone (colorConf true) ⟨setUpDb, [], 0⟩ =
    .ok ids t :=
  startServer_delete_done isMd5_sampleMd5 rfl (List.cons_ne_nil _ _) (List.cons_ne_nil _ _)
    (colorConf_fits true) (colorConf_distinct true) (List.forall_mem_nil _) (by decide)

theorem startsFresh_sample :
    (∃ ids t, startServer allDone (colorConf true) ⟨setUpDb, [], 0⟩ = .ok ids t) ∧
    ∀ plan ids t, startServer plan (colorConf true) ⟨setUpDb, [], 0⟩ = .ok ids t →
      Fresh (colorConf true) ids t.db :=
  startsFresh isMd5_sampleMd5 rfl (List.cons_ne_nil _ _) (List.cons_ne_nil _ _)
    (colorConf_fits true) (colorConf_distinct true) (List.forall_mem_nil _) (by decide)

/-! ## Runs -/

/-- A server and its database: the processes while it runs, and the configuration of the last
    start with `-D`, if this one has succeeded. -/
structure SiteState where
  db : StartDb
  procs : Option ((ℕ → Feeder) × (ℕ → UpdatePhase))
  made : Option SchemaConf

/-- A start, with the statements that fail in it, a step of a server that runs, or its end. -/
inductive SiteAction
  | start (conf : StartConf) (plan : ℕ → Fate)
  | serve (conf : FeedingConf) (ctx : IndexContext) (a : IndexAction)
  | stop

/-- What a start leaves behind. -/
def SiteState.started (s : SiteState) (conf : StartConf) :
    EStateM.Result StartFailure Connection (List ℕ) → SiteState
  | .ok _ t => ⟨t.db, some (fun _ => ⟨.idle, ∅⟩, fun _ => .idle),
      if conf.deleteDb then some conf.toSchemaConf else s.made⟩
  | .error _ t => ⟨t.db, none, if conf.deleteDb then none else s.made⟩

/-- The step of an action, if it can be taken. -/
def siteStep (s : SiteState) : SiteAction → Option SiteState
  | .start conf plan => match s.procs with
    | none => some (s.started conf (startServer plan conf ⟨s.db, [], 0⟩))
    | some _ => none
  | .serve conf ctx a => s.procs.bind fun procs =>
    (indexStep conf ctx ⟨s.db.rows, procs.1, procs.2⟩ a).map fun t =>
      { s with db := { s.db with rows := t.db }, procs := some (t.feeders, t.slaves) }
  | .stop => some { s with procs := none }

/-- Any database, with no server at first. -/
def siteSystem : System SiteState SiteAction where
  init s := s.procs = none ∧ s.made = none
  step s a t := siteStep s a = some t

/-- The hashes of the attributes are those of MD5. -/
def NamedByMd5 (_ : SiteState) : SiteAction → Prop
  | .start conf _ => IsMd5 conf.md5
  | _ => True

section Serving

variable {ctx : IndexContext}

/-- Storing a record leaves the attributes alone. -/
theorem keptByStatements_attrs {attrs : List AttrsRow} :
    KeptByStatements ctx Set.univ fun db => db.attrs = attrs where
  job ps jobid owner db db' hdb h := by
    obtain ⟨_, -, rfl⟩ := Option.map_eq_some_iff.1 h
    exact hdb
  user owner db db' hdb h := by
    obtain ⟨_, -, rfl⟩ := Option.map_eq_some_iff.1 h
    exact hdb
  value _ _ _ hdb := hdb
  column sql _ db n db' hdb h := by
    obtain ⟨_, _, -, -, _, -, rfl⟩ := execUpdate_eq_some h
    exact hdb

theorem slaveStep_attrs {db db' : IndexDb} {a : SlaveAction} {phase phase' : UpdatePhase}
    (h : slaveStep ctx db a phase = some (db', phase')) : db'.attrs = db.attrs := by
  unfold slaveStep at h
  split at h
  case h_1 fails msg =>
    obtain ⟨rfl, -⟩ := followedBy_eq h
    rw [selectInfoFeed]
    split <;> rfl
  case h_2 fails feed msg =>
    obtain ⟨rfl, -⟩ := followedBy_eq h
    have hmark : Keeps (fun d => d.attrs = db.attrs) (markDone fails feed msg.feedDone) := by
      rw [markDone]
      split_ifs
      · refine keeps_expectOne fun d n d' hd hstmt => ?_
        rw [← (Prod.mk.inj (Option.some.inj hstmt)).2]
        exact hd
      · exact .pure _
    exact hmark db rfl
  case h_3 fails ps ijobs r rs =>
    obtain ⟨rfl, -⟩ := followedBy_eq h
    exact keptByStatements_attrs.updateJob (Set.subset_univ _) db rfl
  case h_4 =>
    obtain ⟨rfl, -⟩ := Prod.mk.inj (Option.some.inj h)
    rfl
  case h_5 => cases h

/-- A server that runs leaves the attributes alone. -/
theorem indexStep_attrs {conf : FeedingConf} {s t : IndexState} {a : IndexAction}
    (h : indexStep conf ctx s a = some t) : t.db.attrs = s.db.attrs := by
  unfold indexStep at h
  split at h
  · cases h
  · obtain ⟨⟨feeds, p⟩, -, rfl⟩ := Option.map_eq_some_iff.1 h
    rfl
  · obtain ⟨⟨db, phase⟩, hslave, rfl⟩ := Option.map_eq_some_iff.1 h
    exact slaveStep_attrs hslave

end Serving

section Runs

variable {s t : SiteState} {a : SiteAction}

/-- The tables are complete, and no server runs without a table of the jobs. -/
structure SiteSound (s : SiteState) : Prop where
  complete : ∀ conf, s.made = some conf → 0 < conf.attrs.length → conf.attrs.length < 2 ^ 31 →
    Complete conf s.db
  jobs : s.procs ≠ none → s.db.tables (ascii "jobs") ≠ none

/-- A database of a configuration has attributes. -/
theorem Complete.atoi_ne {conf : SchemaConf} {d : StartDb} (h : Complete conf d)
    (hpos : 0 < conf.attrs.length) (hlt : conf.attrs.length < 2 ^ 31) :
    atoi (printNat d.rows.attrs.length) ≠ 0 := by
  rw [h.attrs, List.length_map, atoi_printNat hlt]
  exact_mod_cast hpos.ne'

theorem StartDb.OnlyFeeds.tables {d d' : StartDb} (h : d.OnlyFeeds d') : d'.tables = d.tables := by
  obtain ⟨_, _, _, rfl⟩ := h
  rfl

/-- A start keeps the tables complete: one with `-D` that succeeds makes them anew, and one
    without finds the attributes. -/
theorem SiteSound.start (hs : SiteSound s) {conf : StartConf} (hmd5 : IsMd5 conf.md5)
    (plan : ℕ → Fate) :
    SiteSound (s.started conf (startServer plan conf ⟨s.db, [], 0⟩)) := by
  have hkeeps : conf.deleteDb = false → ∀ c, s.made = some c → 0 < c.attrs.length →
      c.attrs.length < 2 ^ 31 →
      Complete c (left (startServer plan conf ⟨s.db, [], 0⟩)).db := by
    intro hdelete c hmade hpos hlt
    have hcomplete := hs.complete c hmade hpos hlt
    exact hcomplete.onlyFeeds
      (keeps_startServer hdelete (hcomplete.atoi_ne hpos hlt) _ ⟨_, _, _, rfl⟩)
  cases hstart : startServer plan conf ⟨s.db, [], 0⟩ with
  | ok ids t =>
    rw [hstart] at hkeeps
    cases hdelete : conf.deleteDb with
    | true =>
      have hfresh := (fresh_of_startServer hmd5 hdelete hstart).toComplete
      refine ⟨fun c hmade _ _ => ?_, fun _ => ?_⟩
      · simp only [SiteState.started, hdelete, if_true, Option.some.injEq] at hmade
        exact hmade ▸ hfresh
      · simp only [SiteState.started, hfresh.jobs]
        exact Option.some_ne_none _
    | false =>
      refine ⟨fun c hmade => hkeeps hdelete c ?_, fun _ => ?_⟩
      · simpa [SiteState.started, hdelete] using hmade
      · obtain ⟨hjobs, -, honly⟩ := startServer_keep_eq_ok hmd5 hdelete hstart
        simpa only [SiteState.started, honly.tables] using hjobs
  | error e t =>
    rw [hstart] at hkeeps
    refine ⟨fun c hmade => ?_, fun h => absurd rfl h⟩
    cases hdelete : conf.deleteDb with
    | true =>
      simp [SiteState.started, hdelete] at hmade
    | false =>
      exact hkeeps hdelete c (by simpa [SiteState.started, hdelete] using hmade)

theorem SiteSound.step (hs : SiteSound s) (ha : NamedByMd5 s a) (h : siteStep s a = some t) :
    SiteSound t := by
  cases a with
  | start conf plan =>
    simp only [siteStep] at h
    split at h
    · obtain rfl := Option.some.inj h
      exact hs.start ha plan
    · cases h
  | serve conf ctx b =>
    obtain ⟨procs, hprocs, h⟩ := Option.bind_eq_some_iff.1 h
    obtain ⟨u, hstep, rfl⟩ := Option.map_eq_some_iff.1 h
    have hattrs := indexStep_attrs hstep
    refine ⟨fun c hmade hpos hlt => ?_,
      fun _ => hs.jobs (by rw [hprocs]; exact Option.some_ne_none _)⟩
    have hcomplete := hs.complete c hmade hpos hlt
    exact ⟨hattrs.trans hcomplete.attrs, hcomplete.distinct, hcomplete.types, hcomplete.data,
      hcomplete.jobs⟩
  | stop =>
    obtain rfl := Option.some.inj h
    exact ⟨hs.complete, fun h => absurd rfl h⟩

/-- In every run, whatever fails in the starts and whenever they are killed, and whatever the
    servers store: after a start with `-D` has succeeded, and until the next one, the tables are
    those of its configuration. No server ever runs without a table of the jobs. -/
theorem complete_of_reachable (h : siteSystem.Reachable NamedByMd5 s) :
    (∀ conf, s.made = some conf → 0 < conf.attrs.length → conf.attrs.length < 2 ^ 31 →
      Complete conf s.db) ∧
    (s.procs ≠ none → s.db.tables (ascii "jobs") ≠ none) := by
  have hsound : SiteSound s := by
    refine h.invariant (fun s hs => ?_) fun s a t hs ha hst => hs.step ha hst
    obtain ⟨hprocs, hmade⟩ := hs
    refine ⟨fun c hc => ?_, fun hne => absurd hprocs hne⟩
    rw [hmade] at hc
    cases hc
  exact ⟨hsound.complete, hsound.jobs⟩

theorem complete_of_reachable_sample : ∃ s : SiteState,
    s.made = some (colorConf true).toSchemaConf ∧
    (∀ conf, s.made = some conf → 0 < conf.attrs.length → conf.attrs.length < 2 ^ 31 →
      Complete conf s.db) ∧
    (s.procs ≠ none → s.db.tables (ascii "jobs") ≠ none) := by
  obtain ⟨ids, t, hstart⟩ := exists_start_delete
  have hreach : siteSystem.Reachable NamedByMd5
      (SiteState.started ⟨setUpDb, none, none⟩ (colorConf true) (.ok ids t)) := by
    have hinit : siteSystem.init ⟨setUpDb, none, none⟩ := ⟨rfl, rfl⟩
    refine .tail (a := .start (colorConf true) allDone) (.init hinit) isMd5_sampleMd5 ?_
    rw [← hstart]
    rfl
  exact ⟨_, rfl, complete_of_reachable hreach⟩

/-- When there is no table of the jobs, as after a start with `-D` that was killed before it
    made the new one, no start will succeed any more. -/
theorem never_starts (hs : s.db.tables (ascii "jobs") = none) (hprocs : s.procs = none)
    (h : siteSystem.Steps System.Always s t) : t.procs = none := by
  refine (h.preserves (I := fun s => s.db.tables (ascii "jobs") = none ∧ s.procs = none)
    (fun s a t hs _ hst => ?_) ⟨hs, hprocs⟩).2
  obtain ⟨hnone, hprocs⟩ := hs
  cases a with
  | start conf plan =>
    simp only [siteSystem, siteStep, hprocs, Option.some.injEq] at hst
    -- the statements about the jobs cannot be prepared
    have hinit := @keeps_initDb plan s.db ⟨s.db, [], 0⟩ ⟨_, _, _, rfl⟩
    cases hresult : initDb plan ⟨s.db, [], 0⟩ with
    | ok _ u => exact absurd hnone (initDb_eq_ok hresult).2
    | error e u =>
      have hstart : startServer plan conf ⟨s.db, [], 0⟩ = .error e u := bind_of_error hresult
      rw [hresult] at hinit
      rw [hstart] at hst
      obtain rfl := hst
      exact ⟨(congrFun hinit.tables _).trans hnone, rfl⟩
  | serve conf ctx b =>
    obtain ⟨procs, hsome, -⟩ := Option.bind_eq_some_iff.1 hst
    rw [hprocs] at hsome
    cases hsome
  | stop =>
    obtain rfl := Option.some.inj hst
    exact ⟨hnone, rfl⟩

/-- A start with `-D` that is killed when it has dropped the table of the jobs. -/
theorem exists_killed : (siteStep ⟨setUpDb, none, none⟩ (.start (colorConf true)
    fun n => if n < 14 then .done else .fails)).any (fun s =>
      s.procs.isNone && (s.db.tables (ascii "jobs")).isNone) = true := by
  decide

theorem never_starts_sample : ∃ s, siteSystem.Reachable System.Always s ∧
    s.db.tables (ascii "jobs") = none ∧
    ∀ t, siteSystem.Steps System.Always s t → t.procs = none := by
  obtain ⟨s, hstep, hs⟩ := Option.any_eq_true _ _ |>.1 exists_killed
  obtain ⟨hprocs, hnone⟩ := Bool.and_eq_true_iff.1 hs
  rw [Option.isNone_iff_eq_none] at hprocs hnone
  exact ⟨s, .tail (.init ⟨rfl, rfl⟩) trivial hstep, hnone, fun t ht => never_starts hnone hprocs ht⟩

end Runs

end JobProvenance
