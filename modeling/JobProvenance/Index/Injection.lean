import JobProvenance.Index.Update
import JobProvenance.Index.QueryParse
import JobProvenance.Lib.SqlData

/-!
# Data and statements

Where the values of messages, the names of clients and the identifiers of feeds
are put into statements: the statements that store a value of an attribute, the
query for jobs, and the refresh of a feed in the primary storage.

A string stays data when its literal denotes it, and the other tokens are those
of a harmless string (`Sql.StaysData`).

* `insertData_in`: what is put in by the escaping conversion does, whatever it is;
* `updateData_in_iff`, `queryData_in_iff`, `refreshData_in_iff`: what is put in as it
  is does exactly when it is verbatim.
-/

namespace JobProvenance

open Sql

/-! ## The statements -/

section Statements

variable (ctx : IndexContext)

/-- A string that is put into a statement: its place, and the text it is put in as. -/
structure Datum where
  place : Place
  text : Bytes
  string : Bytes

/-- A string is put into a statement, and stays data there. -/
def Datum.In (d : Datum) (sql : Bytes) : Prop :=
  sql = d.place.text d.text ∧ StaysData d.place d.text d.string

/-- The text that inserts a value of an attribute. -/
def insertAttrvalSql (id : Bytes) (row : AttrRow) : Bytes :=
  ascii "INSERT INTO attr_" ++ (ctx.quoting.quote (some id) ++
    (ascii " (jobid, value, full_value, origin) VALUES (\n\t'" ++ (ctx.quoting.quote (some row.jobid) ++
      (ascii "',\n\t'" ++ (ctx.quoting.quote (some row.value) ++
        (ascii "',\n\t'" ++ (ctx.quoting.quote (some row.fullValue) ++
          (ascii "',\n\t'" ++ (printDec row.origin ++ ascii "'\n)")))))))))

/-- What stands in front of the values of a row. -/
def insertHead (id jobid : Bytes) : Bytes :=
  ascii "INSERT INTO " ++ (ascii "attr_" ++ (id ++
    (ascii " (jobid, value, full_value, origin) VALUES (\n\t" ++ (ascii "'" ++ (jobid ++
      (ascii "'" ++ ascii ",\n\t"))))))

/-- What stands behind them. -/
def insertTail (origin : ℤ) : Bytes :=
  ascii ",\n\t" ++ (ascii "'" ++ (printDec origin ++ (ascii "'" ++ ascii "\n)")))

/-- The values of a row, as they are put into it. -/
def insertData (id : Bytes) (row : AttrRow) : List Datum :=
  let value := ctx.quoting.quote (some row.value)
  let fullValue := ctx.quoting.quote (some row.fullValue)
  [⟨⟨insertHead id row.jobid, ascii ",\n\t" ++ (ascii "'" ++ (fullValue ++ (ascii "'" ++
      insertTail row.origin)))⟩, value, row.value⟩,
    ⟨⟨insertHead id row.jobid ++ (ascii "'" ++ (value ++ (ascii "'" ++ ascii ",\n\t"))),
      insertTail row.origin⟩, fullValue, row.fullValue⟩]

/-- What stands in front of the value in the update of a column. -/
def updateHead (id : Bytes) : Bytes :=
  ascii "UPDATE jobs \n\tSET " ++ (ascii "attr_" ++ (id ++ ascii "="))

/-- The value and the job, as they are put into the update. -/
def updateData (id value jobid : Bytes) : List Datum :=
  [⟨⟨updateHead id, ascii " \n\tWHERE dg_jobid=" ++ (ascii "'" ++ (jobid ++ (ascii "'" ++ [])))⟩,
      value, value⟩,
    ⟨⟨updateHead id ++ (ascii "'" ++ (value ++ (ascii "'" ++ ascii " \n\tWHERE dg_jobid="))), []⟩,
      jobid, jobid⟩]

/-- The client, as it is put into the query with some conditions. -/
def queryDatum (conditions : List IndexQuery) : Exec Datum := do
  let (attrTables, qwhere) ← whereFrom ctx 0 conditions ([], [])
  return {
    place :=
      { before := ascii "SELECT DISTINCT dg_jobid,ps FROM jobs,users" ++
          ((attrTables.flatMap fun id => ascii ", attr_" ++ id) ++
            ascii " WHERE (jobs.ownerid = users.userid AND users.cert_subj=")
        after := ascii ") AND" ++ qwhere }
    text := ctx.peer.getD nullText
    string := ctx.peer.getD nullText }

end Statements

/-- The text that refreshes a feed in the primary storage; the time is printed by the
    database library. -/
def refreshFeedSql (timeToDb : ℤ → Bytes) (feedId : Bytes) (expires : ℤ) : Bytes :=
  ascii "update feeds set expires=" ++ (timeToDb expires ++ (ascii " where feedid='" ++
    (feedId ++ ascii "'")))

/-- The feed, as it is put into it. -/
def refreshDatum (timeToDb : ℤ → Bytes) (feedId : Bytes) (expires : ℤ) : Datum where
  place :=
    { before := ascii "update feeds set expires=" ++ (timeToDb expires ++ ascii " where feedid=")
      after := [] }
  text := feedId
  string := feedId

/-! ## Values -/

section Values

variable {ctx : IndexContext} {id value jobid : Bytes} {row : AttrRow}

/-- A table of an attribute behind a text that ends between two tokens. -/
theorem lexesIdle_attrTable {p q : Bytes} {ts ts' : List Token} (hp : LexesIdle p ts)
    (hid : ∀ b ∈ id, isHexDigit b = true) (hq : endsToken q = true) (h : LexesIdle q ts') :
    LexesIdle (p ++ (ascii "attr_" ++ (id ++ q))) (ts ++ (.word (attrTable id) :: ts')) := by
  have htable := lexes_attrColumn hid (c := []) (by simp)
  rw [List.append_nil] at htable
  have hrest := hp.append_idle (htable.append_idle hq h)
  rw [attrTable, List.append_assoc] at hrest
  exact hrest

/-- A literal behind a text that ends between two tokens. -/
theorem lexesIdle_lit {p q s r : Bytes} {ts ts' : List Token} (hp : LexesIdle p ts)
    (hq : ∀ ts, (Lexer.lit ts []).feed q = .lit ts s) (hr : endsToken r = true)
    (h : LexesIdle r ts') :
    LexesIdle (p ++ (ascii "'" ++ (q ++ (ascii "'" ++ r)))) (ts ++ (.lit s :: ts')) := by
  have hrest := hp.append_idle ((Lexes.lit hq).append_idle hr h)
  rw [List.append_assoc, List.append_assoc] at hrest
  exact hrest

theorem feed_quote (s : Bytes) (ts : List Token) :
    (Lexer.lit ts []).feed (ctx.quoting.quote (some s)) = .lit ts s := ctx.quoting.feed_quote _ ts

theorem feed_printDec (z : ℤ) (ts : List Token) :
    (Lexer.lit ts []).feed (printDec z) = .lit ts (printDec z) := by
  rw [Lexer.feed_lit (notMem_printDec (by decide) (by decide))
    (notMem_printDec (by decide) (by decide)), List.nil_append]

theorem feed_hash {s : Bytes} (hs : ∀ b ∈ s, isHexDigit b = true) (ts : List Token) :
    (Lexer.lit ts []).feed s = .lit ts s := by
  rw [Lexer.feed_lit (fun h => absurd (hs _ h) (by decide)) (fun h => absurd (hs _ h) (by decide)),
    List.nil_append]

theorem lexesIdle_insertHead (hid : ∀ b ∈ id, isHexDigit b = true)
    (hjob : ∀ b ∈ jobid, isHexDigit b = true) : ∃ ts, LexesIdle (insertHead id jobid) ts := by
  have hinto : LexesIdle (ascii "INSERT INTO ") [.word (ascii "INSERT"), .word (ascii "INTO")] :=
    .of_feed rfl
  have hcols : LexesIdle (ascii " (jobid, value, full_value, origin) VALUES (\n\t")
      [.lpar, .word (ascii "jobid"), .comma, .word (ascii "value"), .comma,
        .word (ascii "full_value"), .comma, .word (ascii "origin"), .rpar, .word (ascii "VALUES"),
        .lpar] := .of_feed rfl
  have hcomma : LexesIdle (ascii ",\n\t") [.comma] := .of_feed rfl
  have hlit := lexesIdle_lit hcols (feed_hash hjob) rfl hcomma
  exact ⟨_, lexesIdle_attrTable hinto hid rfl hlit⟩

/-- The text of the statement between the places. -/
theorem insertAttrvalSql_eq (hid : ∀ b ∈ id, isHexDigit b = true)
    (hjob : ∀ b ∈ row.jobid, isHexDigit b = true) : insertAttrvalSql ctx id row =
      insertHead id row.jobid ++ (ascii "'" ++ (ctx.quoting.quote (some row.value) ++ (ascii "'" ++
        (ascii ",\n\t" ++ (ascii "'" ++ (ctx.quoting.quote (some row.fullValue) ++ (ascii "'" ++
          insertTail row.origin))))))) := by
  have hinto : ascii "INSERT INTO attr_" = ascii "INSERT INTO " ++ ascii "attr_" := by decide
  have hcols : ascii " (jobid, value, full_value, origin) VALUES (\n\t'" =
      ascii " (jobid, value, full_value, origin) VALUES (\n\t" ++ ascii "'" := by decide
  have hcomma : ascii "',\n\t'" = ascii "'" ++ (ascii ",\n\t" ++ ascii "'") := by decide
  have hend : ascii "'\n)" = ascii "'" ++ ascii "\n)" := by decide
  rw [insertAttrvalSql, quote_id ctx hid, quote_id ctx hjob, insertHead, insertTail, hinto, hcols,
    hcomma, hend]
  simp only [List.append_assoc]

/-- The values of a row stay data. -/
theorem insertData_in (hid : ∀ b ∈ id, isHexDigit b = true)
    (hjob : ∀ b ∈ row.jobid, isHexDigit b = true) :
    ∀ d ∈ insertData ctx id row, d.In (insertAttrvalSql ctx id row) := by
  obtain ⟨ts, hhead⟩ := lexesIdle_insertHead hid hjob
  have hcomma : LexesIdle (ascii ",\n\t") [.comma] := .of_feed rfl
  have hend : LexesIdle (ascii "\n)") [.rpar] := .of_feed rfl
  have hlast := lexesIdle_lit hcomma (feed_printDec row.origin) rfl hend
  have hfull := lexesIdle_lit hcomma (@feed_quote ctx row.fullValue) rfl hlast
  have hvalue := lexesIdle_lit hhead (@feed_quote ctx row.value) rfl hcomma
  rw [insertData, List.forall_mem_cons, List.forall_mem_singleton, Datum.In, Datum.In,
    insertAttrvalSql_eq hid hjob]
  refine ⟨⟨rfl, staysData_of_denotes ⟨hhead, hfull.lexes, .inr rfl⟩ (feed_quote _)⟩,
    ?_, staysData_of_denotes ⟨hvalue, hlast.lexes, .inr rfl⟩ (feed_quote _)⟩
  simp only [Place.text, List.append_assoc]

/-- The text of the update between the places. -/
theorem insertSingleattrvalSql_eq : insertSingleattrvalSql id value jobid = updateHead id ++
    (ascii "'" ++ (value ++ (ascii "'" ++ (ascii " \n\tWHERE dg_jobid=" ++ (ascii "'" ++ (jobid ++
      ascii "'")))))) := by
  have hupdate : ascii "UPDATE jobs \n\tSET attr_" = ascii "UPDATE jobs \n\tSET " ++ ascii "attr_" := by
    decide
  have hquote : ascii "='" = ascii "=" ++ ascii "'" := by decide
  have hend : ascii "' \n\tWHERE dg_jobid='" =
      ascii "'" ++ (ascii " \n\tWHERE dg_jobid=" ++ ascii "'") := by decide
  rw [insertSingleattrvalSql, updateHead, hupdate, hquote, hend]
  simp only [List.append_assoc]

theorem lexesIdle_updateHead (hid : ∀ b ∈ id, isHexDigit b = true) : LexesIdle (updateHead id)
    [.word (ascii "UPDATE"), .word (ascii "jobs"), .word (ascii "SET"), .word (attrTable id), .eq] := by
  have hset : LexesIdle (ascii "UPDATE jobs \n\tSET ")
      [.word (ascii "UPDATE"), .word (ascii "jobs"), .word (ascii "SET")] := .of_feed rfl
  have heq : LexesIdle (ascii "=") [.eq] := .of_feed rfl
  exact lexesIdle_attrTable hset hid rfl heq

theorem lexesIdle_where : LexesIdle (ascii " \n\tWHERE dg_jobid=")
    [.word (ascii "WHERE"), .word (ascii "dg_jobid"), .eq] := .of_feed rfl

/-- What the update sets whose value is verbatim, whatever the job is. -/
theorem sets_of_parseUpdate (hid : ∀ b ∈ id, isHexDigit b = true) (hv : verbatim value = true)
    {u : Update} (h : parseUpdate (insertSingleattrvalSql id value jobid) = some u) :
    u.sets = [(attrTable id, value)] := by
  have hidle := lexesIdle_lit (lexesIdle_updateHead hid) (fun _ => Lexer.feed_lit_eq_iff.2 hv) rfl
    lexesIdle_where
  have htext : insertSingleattrvalSql id value jobid = (updateHead id ++ (ascii "'" ++ (value ++
      (ascii "'" ++ ascii " \n\tWHERE dg_jobid=")))) ++ (ascii "'" ++ (jobid ++ ascii "'")) := by
    rw [insertSingleattrvalSql_eq]
    simp only [List.append_assoc]
  rw [parseUpdate, htext, hidle.lex_append] at h
  obtain ⟨ts, -, h⟩ := Option.bind_eq_some_iff.1 (Option.bind_map ▸ h)
  -- what comes from the job is a part of the condition
  replace h : updateOfTokens (updateTokens (ascii "jobs") (attrTable id) value ++
      (.word (ascii "dg_jobid") :: .eq :: ts)) = some u := h
  rw [updateOfTokens_updateTokens] at h
  obtain ⟨e, -, rfl⟩ := Option.map_eq_some_iff.1 h
  rfl

/-- The value and the job stay data in the update of a column exactly when they are
    verbatim. -/
theorem updateData_in_iff (hid : ∀ b ∈ id, isHexDigit b = true) :
    (∀ d ∈ updateData id value jobid, d.In (insertSingleattrvalSql id value jobid)) ↔
      verbatim value = true ∧ verbatim jobid = true := by
  have hhead := lexesIdle_updateHead hid
  -- behind a value that is verbatim the job is between two tokens
  have hjob : verbatim value = true → ∃ ts, LexesIdle (updateHead id ++ (ascii "'" ++ (value ++
      (ascii "'" ++ ascii " \n\tWHERE dg_jobid=")))) ts := fun hvalue =>
    ⟨_, lexesIdle_lit hhead (fun _ => Lexer.feed_lit_eq_iff.2 hvalue) rfl lexesIdle_where⟩
  rw [updateData, List.forall_mem_cons, List.forall_mem_singleton, Datum.In, Datum.In,
    insertSingleattrvalSql_eq]
  constructor
  · rintro ⟨⟨-, hvalue⟩, -, hjobid⟩
    have hv := verbatim_of_staysData hhead hvalue
    obtain ⟨ts, hts⟩ := hjob hv
    exact ⟨hv, verbatim_of_staysData hts hjobid⟩
  · rintro ⟨hv, hj⟩
    obtain ⟨ts, hts⟩ := hjob hv
    have hend : Lexes (ascii " \n\tWHERE dg_jobid=" ++ (ascii "'" ++ (jobid ++ (ascii "'" ++ [])))) _ :=
      lexesIdle_where.append (Lexes.lit fun _ => Lexer.feed_lit_eq_iff.2 hj)
    refine ⟨⟨?_, (staysData_iff_verbatim ⟨hhead, hend, .inr rfl⟩).2 hv⟩, ?_,
      (staysData_iff_verbatim ⟨hts, .nil, .inl rfl⟩).2 hj⟩
    · simp only [Place.text, List.append_nil]
    · simp only [Place.text, List.append_assoc, List.append_nil]

end Values

/-! ## Clients and feeds -/

section Names

variable {ctx : IndexContext} {cs : List IndexQuery} {sql : Bytes}

/-- What stands in front of the name of the client in a query. -/
theorem lexes_beforeName (ctx : IndexContext) (cs : List IndexQuery) :
    LexesIdle (ascii "SELECT DISTINCT dg_jobid,ps FROM jobs,users" ++
        ((attrTables ctx cs []).flatMap fun id => ascii ", attr_" ++ id) ++
          ascii " WHERE (jobs.ownerid = users.userid AND users.cert_subj=")
      ([.word (ascii "SELECT"), .word (ascii "DISTINCT"), .word (ascii "dg_jobid"), .comma,
        .word (ascii "ps"), .word (ascii "FROM"), .word (ascii "jobs"), .comma,
        .word (ascii "users")] ++
          ((attrTables ctx cs []).map attrTable).flatMap (fun w => [.comma, .word w]) ++
        [.word (ascii "WHERE"), .lpar, .word (ascii "jobs.ownerid"), .eq,
          .word (ascii "users.userid"), .and, .word (ascii "users.cert_subj"), .eq]) := by
  have hhead : Lexes (ascii "SELECT DISTINCT dg_jobid,ps FROM jobs,users")
      [.word (ascii "SELECT"), .word (ascii "DISTINCT"), .word (ascii "dg_jobid"), .comma,
        .word (ascii "ps"), .word (ascii "FROM"), .word (ascii "jobs"), .comma,
        .word (ascii "users")] := Lexes.of_lex (by decide)
  have htest : LexesIdle (ascii " WHERE (jobs.ownerid = users.userid AND users.cert_subj=")
      [.word (ascii "WHERE"), .lpar, .word (ascii "jobs.ownerid"), .eq,
        .word (ascii "users.userid"), .and, .word (ascii "users.cert_subj"), .eq] := .of_feed rfl
  exact (lexes_tables hhead (@attrTables_digits ctx cs)).append_idle rfl htest

/-- The client stays data in the query exactly when its name is verbatim. -/
theorem queryDatum_in_iff (hauth : ctx.conf.noAuth = false) (h : queryText ctx cs = .ok sql) :
    ∃ d, queryDatum ctx cs = .ok d ∧ (d.In sql ↔ verbatim (ctx.peer.getD nullText) = true) := by
  have hcs : ∀ c ∈ cs, Buildable ctx c := by
    by_contra hcs
    obtain ⟨r, hr, -⟩ := Exec.bind_eq_ok.1 h
    exact whereFrom_ne hcs _ r hr
  have hclose : Lexes (ascii ") AND" ++ []) [.rpar, .and] := Lexes.of_lex (by decide)
  obtain ⟨qwhere, ts, hwhere, hlex, -⟩ := @whereFrom_eq ctx cs 0 hcs [] _ _ _ hclose
  have hbefore := lexes_beforeName ctx cs
  rw [List.append_assoc] at hbefore
  refine ⟨_, by rw [queryDatum, hwhere]; rfl, ?_⟩
  rw [queryText, hwhere, Exec.ok_bind, hauth] at h
  obtain rfl := Except.ok.inj h
  rw [Datum.In, staysData_iff_verbatim ⟨hbefore, hlex, .inr rfl⟩, and_iff_right]
  have hopen : ascii " WHERE (jobs.ownerid = users.userid AND users.cert_subj='" =
      ascii " WHERE (jobs.ownerid = users.userid AND users.cert_subj=" ++ ascii "'" := by
    decide
  have hend : ascii "') AND" = ascii "'" ++ ascii ") AND" := by decide
  rw [hopen, hend]
  simp only [Place.text, List.append_assoc]

/-- The feed stays data in a refresh exactly when its identifier is verbatim. -/
theorem refreshDatum_in_iff {timeToDb : ℤ → Bytes} {feedId : Bytes} {expires : ℤ} {t : Bytes}
    (htime : Lexes (timeToDb expires) [.lit t]) :
    (refreshDatum timeToDb feedId expires).In (refreshFeedSql timeToDb feedId expires) ↔
      verbatim feedId = true := by
  have hset : LexesIdle (ascii "update feeds set expires=")
      [.word (ascii "update"), .word (ascii "feeds"), .word (ascii "set"), .word (ascii "expires"),
        .eq] := .of_feed rfl
  have hwhere : LexesIdle (ascii " where feedid=")
      [.word (ascii "where"), .word (ascii "feedid"), .eq] := .of_feed rfl
  have hbefore := hset.append_idle (htime.append_idle rfl hwhere)
  rw [Datum.In, refreshDatum, staysData_iff_verbatim ⟨hbefore, .nil, .inl rfl⟩, and_iff_right]
  have hopen : ascii " where feedid='" = ascii " where feedid=" ++ ascii "'" := by decide
  rw [refreshFeedSql, hopen]
  simp only [Place.text, List.append_assoc, List.append_nil]

/-- The hash of a row. -/
theorem jobid_of_attrvalRow {jobid value : Bytes} {av : Attrval} {row : AttrRow}
    (h : attrvalRow ctx jobid av = .ok (row, value)) : row.jobid = ctx.md5 jobid := by
  obtain ⟨fullValue, -, h⟩ := Exec.bind_eq_ok.1 h
  exact congrArg (AttrRow.jobid ∘ Prod.fst) (Except.ok.inj h).symm

/-- Whatever a message has, it stays data where it is escaped; where it is put in as it
    is, it stays data exactly when it is verbatim. -/
theorem staysData_iff_verbatim_plain {timeToDb : ℤ → Bytes}
    (htime : ∀ expires, ∃ t, Lexes (timeToDb expires) [.lit t]) :
    (∀ jobid av row value, attrvalRow ctx jobid av = .ok (row, value) →
      (∀ d ∈ insertData ctx (attr2id ctx.md5 av.name) row,
        d.In (insertAttrvalSql ctx (attr2id ctx.md5 av.name) row)) ∧
      ((∀ d ∈ updateData (attr2id ctx.md5 av.name) value jobid,
        d.In (insertSingleattrvalSql (attr2id ctx.md5 av.name) value jobid)) ↔
          verbatim value = true ∧ verbatim jobid = true)) ∧
    (ctx.conf.noAuth = false → ∀ cs sql, queryText ctx cs = .ok sql →
      ∃ d, queryDatum ctx cs = .ok d ∧ (d.In sql ↔ verbatim (ctx.peer.getD nullText) = true)) ∧
    ∀ feedId expires, (refreshDatum timeToDb feedId expires).In
      (refreshFeedSql timeToDb feedId expires) ↔ verbatim feedId = true := by
  refine ⟨fun jobid av row value hrow => ?_, fun hauth cs sql => queryDatum_in_iff hauth,
    fun feedId expires => ?_⟩
  · have hid : ∀ b ∈ attr2id ctx.md5 av.name, isHexDigit b = true := fun b =>
      isHexDigit_of_mem_attr2id
    have hjob : ∀ b ∈ row.jobid, isHexDigit b = true := by
      rw [jobid_of_attrvalRow hrow]
      exact ctx.isMd5.digits jobid
    exact ⟨insertData_in hid hjob, updateData_in_iff hid⟩
  · obtain ⟨t, ht⟩ := htime expires
    exact refreshDatum_in_iff ht

end Names

/-! ## Harmless and other strings -/

/-- The time 0 as the database library prints it, for every time. -/
def sampleTimeToDb (_ : ℤ) : Bytes := ascii "'1970-01-01 00:00:00'"

/-- A red value with a quote, or without. -/
def sampleQuoted (quoted : Bool) : Attrval where
  name := sampleAttr
  value := if quoted then ascii "red'" else ascii "red"
  binary := false
  size := 0
  origin := .user
  originDetail := none
  timestamp := 0

theorem attrvalRow_sampleQuoted (quoted : Bool) : ∃ row,
    attrvalRow (sampleServer false) (ascii "https://lb/job") (sampleQuoted quoted) =
      .ok (row, (sampleQuoted quoted).value) := by
  apply Exec.exists_of_map_snd
  cases quoted
  · decide +kernel
  · decide +kernel

theorem lexes_sampleTimeToDb (expires : ℤ) :
    Lexes (sampleTimeToDb expires) [.lit (ascii "1970-01-01 00:00:00")] := by
  rw [sampleTimeToDb]
  exact Lexes.of_lex (by decide)

/-- The value, the job and the feed of the sample are harmless. -/
theorem staysData_iff_verbatim_plain_sample :
    (∃ row, (∀ d ∈ insertData (sampleServer false) (attr2id (sampleServer false).md5
          (sampleQuoted false).name) row, d.In (insertAttrvalSql (sampleServer false)
        (attr2id (sampleServer false).md5 (sampleQuoted false).name) row)) ∧
      ∀ d ∈ updateData (attr2id (sampleServer false).md5 (sampleQuoted false).name)
          (sampleQuoted false).value (ascii "https://lb/job"),
        d.In (insertSingleattrvalSql (attr2id (sampleServer false).md5 (sampleQuoted false).name)
          (sampleQuoted false).value (ascii "https://lb/job"))) ∧
    (refreshDatum sampleTimeToDb (ascii "feed") 0).In
      (refreshFeedSql sampleTimeToDb (ascii "feed") 0) := by
  obtain ⟨row, hrow⟩ := attrvalRow_sampleQuoted false
  obtain ⟨hvalues, -, hfeed⟩ := @staysData_iff_verbatim_plain (sampleServer false) sampleTimeToDb
    fun expires => ⟨_, lexes_sampleTimeToDb expires⟩
  obtain ⟨hinsert, hupdate⟩ := hvalues _ _ row _ hrow
  exact ⟨⟨row, hinsert, hupdate.2 ⟨by decide +kernel, by decide +kernel⟩⟩,
    (hfeed _ _).2 (by decide +kernel)⟩

/-- A client whose name has a quote. -/
def quotedServer : IndexContext :=
  { sampleServer false with peer := some (ascii "/CN=alice' OR '1'='1") }

/-- A quote in a value, in the name of a client or in the identifier of a feed becomes
    a part of the statement. -/
theorem not_staysData_sample :
    (∃ row, attrvalRow (sampleServer false) (ascii "https://lb/job") (sampleQuoted true) =
        .ok (row, (sampleQuoted true).value) ∧
      ¬∀ d ∈ updateData (attr2id (sampleServer false).md5 (sampleQuoted true).name)
          (sampleQuoted true).value (ascii "https://lb/job"),
        d.In (insertSingleattrvalSql (attr2id (sampleServer false).md5 (sampleQuoted true).name)
          (sampleQuoted true).value (ascii "https://lb/job"))) ∧
    (∃ sql d, queryText quotedServer [jobidCondition] = .ok sql ∧
      queryDatum quotedServer [jobidCondition] = .ok d ∧ ¬d.In sql) ∧
    ¬(refreshDatum sampleTimeToDb (ascii "feed' OR '1'='1") 0).In
      (refreshFeedSql sampleTimeToDb (ascii "feed' OR '1'='1") 0) := by
  refine ⟨?_, ?_, ?_⟩
  · obtain ⟨row, hrow⟩ := attrvalRow_sampleQuoted true
    have hid : ∀ b ∈ attr2id (sampleServer false).md5 (sampleQuoted true).name,
        isHexDigit b = true := fun b => isHexDigit_of_mem_attr2id
    exact ⟨row, hrow, fun h => absurd ((updateData_in_iff hid).1 h).1 (by decide +kernel)⟩
  · obtain ⟨sql, hsql⟩ : ∃ sql, queryText quotedServer [jobidCondition] = .ok sql :=
      Exec.exists_of_isOk (by decide +kernel)
    obtain ⟨d, hd, hin⟩ := queryDatum_in_iff rfl hsql
    exact ⟨sql, d, hsql, hd, fun h => absurd (hin.1 h) (by decide +kernel)⟩
  · exact fun h => absurd ((refreshDatum_in_iff (lexes_sampleTimeToDb 0)).1 h) (by decide +kernel)

end JobProvenance
