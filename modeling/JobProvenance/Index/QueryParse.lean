import JobProvenance.Index.Query

/-!
# What the text of a query says

The text `queryText` puts together, read as SQL. `recordExpr` is the comparison
a record stands for and `conditionExprs` are the conjuncts of a condition; what
the parser makes of the text is determined by where conditions that add nothing
and conditions on the job identifier stand (`shape`, `WellShaped`).

* `getSqlOr_eq`: the records of a condition are alternatives;
* `conditionSql_eq`: a condition contributes its conjuncts, and the `AND` in
  front of them when it is on an attribute and not the first;
* `parse_queryText`: the query parses exactly when it is well shaped, to the
  conjunction of all conditions, under the test of the owner.
-/

namespace JobProvenance

open Sql

/-! ## Names -/

section Names

variable {id : Bytes}

theorem isWord_of_isHexDigit {b : UInt8} (h : isHexDigit b = true) : isWord b = true := by
  simp only [isHexDigit, Bool.or_eq_true, Bool.and_eq_true, decide_eq_true_eq] at h
  simp only [isWord, Bool.or_eq_true, Bool.and_eq_true, decide_eq_true_eq]
  rcases h with h | ⟨h, h'⟩
  · exact .inl (.inl (.inr h))
  · exact .inl (.inl (.inl (.inl ⟨h, UInt8.le_trans h' (show ch 'f' ≤ ch 'z' by decide)⟩)))

theorem isHexDigit_of_mem_attr2id {ctx : IndexContext} {name : Bytes} {b : UInt8}
    (h : b ∈ attr2id ctx.md5 name) : isHexDigit b = true := ctx.isMd5.digits _ b h

/-- A hash is printed as it is. -/
theorem quote_id (ctx : IndexContext) (hid : ∀ b ∈ id, isHexDigit b = true) :
    ctx.quoting.quote (some id) = id := by
  refine ctx.quoting.quote_plain ?_ ?_
  · exact fun h => absurd (hid _ h) (by decide)
  · exact fun h => absurd (hid _ h) (by decide)

/-- A name that starts with a letter in lower case is a column. -/
theorem operandOf_word {b : UInt8} {w : Bytes} (hb : ch 'a' ≤ b) :
    operandOf (.word (b :: w)) = some (.col (b :: w)) := by
  have hne : ∀ c, c < ch 'a' → b ≠ c := by
    rintro c hc rfl
    exact absurd hc (UInt8.not_lt.2 hb)
  have hkey : b :: w ∉ keywords := by
    have hA := hne (ch 'A') (by decide)
    have hO := hne (ch 'O') (by decide)
    have hB := hne (ch 'B') (by decide)
    simp only [keywords, List.mem_cons, List.not_mem_nil, or_false, not_or]
    exact ⟨fun h => hA (List.cons.inj h).1, fun h => hO (List.cons.inj h).1,
      fun h => hB (List.cons.inj h).1⟩
  have hdigit : (b :: w).all isDigit = false := by
    rw [List.all_cons, Bool.and_eq_false_iff]
    refine .inl ?_
    rw [isDigit, Char.isDigit, Bool.and_eq_false_iff]
    refine .inr ?_
    rw [decide_eq_false_iff_not, UInt32.not_le]
    have h : (ch 'a').toNat ≤ b.toNat := UInt8.le_iff_toNat_le.1 hb
    exact UInt32.lt_iff_toNat_lt.2 (lt_of_lt_of_le (by decide) h)
  rw [operandOf, if_neg hkey, hdigit]
  rfl

theorem operandOf_printNat (n : ℕ) : operandOf (.word (printNat n)) = some (.num n) := by
  have hdigits : ∀ b ∈ printNat n, isDigit b = true := fun b => isDigit_of_mem_printNat
  have hkey : printNat n ∉ keywords := by
    intro h
    have hall : (printNat n).all isDigit = true := List.all_eq_true.2 hdigits
    have hno : ∀ w ∈ keywords, w.all isDigit = false := by decide
    rw [hno _ h] at hall
    cases hall
  rw [operandOf, if_neg hkey, if_pos (List.all_eq_true.2 hdigits), digitsValue_printNat]

theorem isWord_attrTable (hid : ∀ b ∈ id, isHexDigit b = true) :
    ∀ b ∈ attrTable id, isWord b = true := by
  have hletters : ∀ b ∈ ascii "attr_", isWord b = true := List.all_eq_true.1 (by decide)
  intro b hb
  rcases List.mem_append.1 hb with hb | hb
  exacts [hletters b hb, isWord_of_isHexDigit (hid b hb)]

/-- A column of the table of an attribute is one word, … -/
theorem lexes_attrColumn (hid : ∀ b ∈ id, isHexDigit b = true) {c : Bytes}
    (hc : c.all isWord = true) : Lexes (attrTable id ++ c) [.word (attrTable id ++ c)] := by
  refine Lexes.word ?_ fun b hb => ?_
  · simp [attrTable, ascii]
  · rcases List.mem_append.1 hb with hb | hb
    exacts [isWord_attrTable hid b hb, List.all_eq_true.1 hc b hb]

/-- … and an operand. -/
theorem operandOf_attrColumn (c : Bytes) :
    operandOf (.word (attrTable id ++ c)) = some (.col (attrTable id ++ c)) :=
  operandOf_word (b := ch 'a') (UInt8.le_refl _)

theorem lexes_printNat (n : ℕ) : Lexes (printNat n) [.word (printNat n)] := by
  refine Lexes.word (printNat_ne_nil n) fun b hb => ?_
  have hdigit : isHexDigit b = true := by
    have h := isDigit_of_mem_printNat hb
    simp only [isDigit, Char.isDigit, Bool.and_eq_true, decide_eq_true_eq] at h
    simp only [isHexDigit, Bool.or_eq_true, Bool.and_eq_true, decide_eq_true_eq]
    exact .inl ⟨UInt8.le_iff_toNat_le.2 (UInt32.le_iff_toNat_le.1 h.1),
      UInt8.le_iff_toNat_le.2 (UInt32.le_iff_toNat_le.1 h.2)⟩
  exact isWord_of_isHexDigit hdigit

end Names

/-! ## Records -/

section Records

variable (ctx : IndexContext)

/-- What a value of the request is compared as. -/
def operand (c : IndexQuery) (v : Option StringOrBlob) : Option Bytes :=
  if c.onJobid then getSqlStringvalue v else getSqlIndexvalue ctx c v

/-- The column that is compared. -/
def column (c : IndexQuery) : Bytes :=
  match conditionId ctx c with
  | some id => attrTable id ++ ascii ".value"
  | none => ascii "jobs.dg_jobid"

/-- A value of the request in the query. -/
def literal (c : IndexQuery) (v : Option StringOrBlob) : Operand :=
  .lit ((operand ctx c v).getD nullText)

/-- The comparison of an operator, if it is one. -/
def compareOp : QueryOp → Option Op
  | .EQUAL => some .eq
  | .UNEQUAL => some .ne
  | .GREATER => some .gt
  | .LESS => some .lt
  | .WITHIN => none
  | .EXISTS => none

/-- What a record says of its column, if anything. -/
def recordExpr (c : IndexQuery) (r : IndexQueryRecord) : Option Expr :=
  match compareOp r.op with
  | some o => some (.cmp o (.col (column ctx c)) (literal ctx c r.value))
  | none =>
    if r.op = .WITHIN then
      some (.between (.col (column ctx c)) (literal ctx c r.value) (literal ctx c r.value2))
    else none

/-- A record whose text the source can make: a comparison with a job identifier
    and a range need a value. -/
def Writable (c : IndexQuery) (r : IndexQueryRecord) : Prop :=
  r.op ≠ .EXISTS → c.onJobid = true ∨ r.op = .WITHIN → operand ctx c r.value ≠ none

variable {ctx} {c : IndexQuery} {r : IndexQueryRecord}

theorem conditionId_digits {id : Bytes} (h : conditionId ctx c = some id) :
    ∀ b ∈ id, isHexDigit b = true := by
  unfold conditionId at h
  split_ifs at h
  rw [← Option.some.inj h]
  exact fun b => isHexDigit_of_mem_attr2id

theorem conditionId_eq_none : conditionId ctx c = none ↔ c.onJobid = true := by
  unfold conditionId
  split_ifs with h <;> simp [h]

theorem sqlColumn_eq : sqlColumn ctx (conditionId ctx c) = column ctx c := by
  rcases h : conditionId ctx c with _ | id
  · rw [sqlColumn, column, h]
  · rw [sqlColumn, column, h]
    simp only [quote_id ctx (conditionId_digits h), attrTable, List.append_assoc]

theorem lexes_column : Lexes (column ctx c) [.word (column ctx c)] := by
  rcases h : conditionId ctx c with _ | id
  · rw [column, h]
    exact Lexes.of_lex (by decide)
  · rw [column, h]
    exact lexes_attrColumn (conditionId_digits h) (by decide)

theorem operandOf_column : operandOf (.word (column ctx c)) = some (.col (column ctx c)) := by
  rcases h : conditionId ctx c with _ | id
  · rw [column, h]
    rfl
  · rw [column, h]
    exact operandOf_attrColumn _

theorem lexes_quote (v : Option Bytes) :
    Lexes (ascii "'" ++ (ctx.quoting.quote v ++ ascii "'")) [.lit (v.getD nullText)] :=
  Lexes.lit (ctx.quoting.feed_quote v)

theorem lexes_comparison {qop : Bytes} {t : Token} (hq : Lexes qop [t]) (v : Option Bytes) :
    Lexes (column ctx c ++ (ascii " " ++ (qop ++ (ascii " '" ++ (ctx.quoting.quote v ++ ascii "'")))))
      [.word (column ctx c), t, .lit (v.getD nullText)] :=
  lexes_column.space (hq.space (lexes_quote v))

/-- The text of an operator that compares is a token of its own. -/
theorem getOp_of_compareOp {op : QueryOp} {o : Op} (h : compareOp op = some o) :
    ∃ qop t, getOp op = some qop ∧ Lexes qop [t] ∧ opOf t = some o := by
  rcases op
  case EQUAL => exact ⟨_, .eq, rfl, Lexes.of_lex (by decide), h⟩
  case UNEQUAL => exact ⟨_, .ne, rfl, Lexes.of_lex (by decide), h⟩
  case GREATER => exact ⟨_, .gt, rfl, Lexes.of_lex (by decide), h⟩
  case LESS => exact ⟨_, .lt, rfl, Lexes.of_lex (by decide), h⟩
  case WITHIN => cases h
  case EXISTS => cases h

theorem column_append_ne_nil (s : Bytes) : column ctx c ++ s ≠ [] := by
  intro h
  have hlen := congrArg List.length h
  rcases hid : conditionId ctx c with _ | id <;>
    simp [column, hid, attrTable, ascii] at hlen

/-- The text of a comparison that can be made. -/
theorem getSqlCond_eq (hop : r.op ≠ .EXISTS)
    (hv : r.op = .WITHIN → operand ctx c r.value ≠ none) : ∃ text ts e,
      getSqlCond ctx (conditionId ctx c) r.op (operand ctx c r.value) (operand ctx c r.value2) =
        (none, some text) ∧
      recordExpr ctx c r = some e ∧ text ≠ [] ∧ Lexes text ts ∧ Parses ts [e] := by
  have hcol := @operandOf_column ctx c
  have hlit : ∀ v, operandOf (.lit ((operand ctx c v).getD nullText)) = some (literal ctx c v) :=
    fun v => rfl
  rw [getSqlCond, sqlColumn_eq]
  rcases hcomp : compareOp r.op with _ | o
  · -- only ranges are left
    have hwithin : r.op = .WITHIN := by
      rcases hr : r.op <;> simp_all [compareOp]
    have hbetween : Lexes (ascii "BETWEEN") [.between] := Lexes.of_lex (by decide)
    have hand : Lexes (ascii "AND") [.and] := Lexes.of_lex (by decide)
    refine ⟨_, _, _, by simp [getOp, hwithin, hv hwithin]; rfl, ?_, ?_,
      (lexes_comparison hbetween _).space (hand.space (lexes_quote _)),
      .between hcol (hlit _) (hlit _)⟩
    · rw [recordExpr, hcomp]
      exact if_pos hwithin
    · rw [List.append_assoc]
      exact column_append_ne_nil _
  · obtain ⟨qop, t, hqop, hlex, ht⟩ := getOp_of_compareOp hcomp
    have hwithin : r.op ≠ .WITHIN := by
      intro h
      rw [h] at hcomp
      cases hcomp
    refine ⟨_, _, _, by simp only [hqop, if_neg hwithin], ?_, column_append_ne_nil _,
      lexes_comparison hlex (operand ctx c r.value), .cmp hcol ht (hlit _)⟩
    rw [recordExpr, hcomp]

/-- The text of a record that compares something, … -/
theorem recordSql_eq (hop : r.op ≠ .EXISTS) (hw : Writable ctx c r) : ∃ text ts e,
    recordSql ctx c (conditionId ctx c) r = some text ∧ recordExpr ctx c r = some e ∧
      text ≠ [] ∧ Lexes text ts ∧ Parses ts [e] := by
  obtain ⟨text, ts, e, htext, he⟩ := getSqlCond_eq (c := c) hop fun h => hw hop (.inr h)
  refine ⟨text, ts, e, ?_, he⟩
  rw [recordSql]
  split_ifs with hj
  · have hv := hw hop (.inl hj)
    simp only [operand, hj, if_true] at htext hv
    obtain ⟨v, hv⟩ := Option.ne_none_iff_exists'.1 hv
    rw [hv] at htext ⊢
    simp only [htext, Option.getD_some, if_true]
  · simp only [operand, hj, if_false, Bool.false_eq_true] at htext
    rw [htext]

/-- … and one whose text cannot be made. -/
theorem recordSql_eq_none (hw : ¬Writable ctx c r) :
    recordSql ctx c (conditionId ctx c) r = none := by
  simp only [Writable, not_forall, not_not] at hw
  obtain ⟨-, hor, hv⟩ := hw
  rw [recordSql]
  split_ifs with hj
  · simp only [operand, hj, if_true] at hv
    rw [hv]
  · have hwithin := hor.resolve_left hj
    simp only [operand, hj, if_false, Bool.false_eq_true] at hv
    rw [hv, hwithin, getSqlCond]
    simp [getOp]

theorem recordExpr_of_exists (hop : r.op = .EXISTS) : recordExpr ctx c r = none := by
  simp [recordExpr, compareOp, hop]

/-- A text of alternatives, none of them the empty text. -/
def Alternatives (text : Bytes) : List Expr → Prop
  | [] => text = []
  | e :: es => text ≠ [] ∧
    ∃ ts f, Lexes text ts ∧ Contents ts f ∧ f.close = some (es.foldl .or e)

/-- One more alternative. -/
theorem Alternatives.append {sql text : Bytes} {es : List Expr} {ts : List Token} {e : Expr}
    (h : Alternatives sql es) (hne : text ≠ []) (hlex : Lexes text ts) (hparse : Parses ts [e]) :
    Alternatives (sql ++ ((if sql = [] then [] else ascii " OR ") ++ text)) (es ++ [e]) := by
  rcases es with _ | ⟨e₀, es⟩
  · obtain rfl : sql = [] := h
    exact ⟨hne, ts, _, hlex, .of_parses hparse, rfl⟩
  · obtain ⟨hsql, ts₀, f, hlex₀, hts₀, hf⟩ := h
    have hor : Lexes (ascii "OR") [.or] := Lexes.of_lex (by decide)
    rw [if_neg hsql]
    refine ⟨by simp [hsql], _, _, hlex₀.space (hor.space hlex), hts₀.or hf hparse, ?_⟩
    change _ = some ((es ++ [e]).foldl Expr.or e₀)
    rw [List.foldl_append]
    rfl

theorem getSqlOrFrom_eq {rs : List IndexQueryRecord} (hw : ∀ r ∈ rs, Writable ctx c r)
    {sql : Bytes} {es : List Expr} (hsql : Alternatives sql es) :
    ∃ text, getSqlOrFrom ctx c (conditionId ctx c) sql rs = .ok (some text) ∧
      Alternatives text (es ++ rs.filterMap (recordExpr ctx c)) := by
  induction rs generalizing sql es with
  | nil =>
    refine ⟨sql, rfl, ?_⟩
    rw [List.filterMap_nil, List.append_nil]
    exact hsql
  | cons r rs ih =>
    rw [List.forall_mem_cons] at hw
    rw [getSqlOrFrom]
    by_cases hop : r.op = .EXISTS
    · rw [if_pos hop, List.filterMap_cons_none (recordExpr_of_exists hop)]
      exact ih hw.2 hsql
    · rw [if_neg hop]
      obtain ⟨text, ts, e, htext, he, hne, hlex, hparse⟩ := recordSql_eq hop hw.1
      rw [htext, List.filterMap_cons_some he, ← List.singleton_append, ← List.append_assoc]
      exact ih hw.2 (hsql.append hne hlex hparse)

/-- The records of a condition are alternatives, … -/
theorem getSqlOr_eq (hw : ∀ r ∈ c.record, Writable ctx c r) :
    ∃ text, getSqlOr ctx c (conditionId ctx c) = .ok (some text) ∧
      Alternatives text (c.record.filterMap (recordExpr ctx c)) :=
  @getSqlOrFrom_eq ctx c _ hw [] [] rfl

theorem getSqlOrFrom_ne {rs : List IndexQueryRecord} (hw : ¬∀ r ∈ rs, Writable ctx c r)
    (sql text : Bytes) : getSqlOrFrom ctx c (conditionId ctx c) sql rs ≠ .ok (some text) := by
  induction rs generalizing sql with
  | nil => simp at hw
  | cons r rs ih =>
    rw [getSqlOrFrom]
    by_cases hr : Writable ctx c r
    · have hrs : ¬∀ r ∈ rs, Writable ctx c r := fun h => hw (List.forall_mem_cons.2 ⟨hr, h⟩)
      by_cases hop : r.op = .EXISTS
      · rw [if_pos hop]
        exact ih hrs sql
      · obtain ⟨cond, -, -, hcond, -⟩ := recordSql_eq hop hr
        rw [if_neg hop, hcond]
        exact ih hrs _
    · have hop : r.op ≠ .EXISTS := fun h => hr fun h' => absurd h h'
      rw [if_neg hop, recordSql_eq_none hr]
      dsimp only
      split_ifs <;> simp

/-- … and there is no text when one of them cannot be made. -/
theorem getSqlOr_ne (hw : ¬∀ r ∈ c.record, Writable ctx c r) (text : Bytes) :
    getSqlOr ctx c (conditionId ctx c) ≠ .ok (some text) :=
  getSqlOrFrom_ne hw [] text

end Records

/-! ## Conditions -/

section Conditions

variable (ctx : IndexContext)

/-- A condition whose text the source can make. -/
structure Buildable (c : IndexQuery) : Prop where
  attr : c.attr ≠ none
  writable : ∀ r ∈ c.record, Writable ctx c r

/-- The conjuncts that join the table of an attribute. -/
def joinExprs (c : IndexQuery) (id : Bytes) : List Expr :=
  (c.origin.map fun orig => Expr.cmp .eq (.col (attrTable id ++ ascii ".origin"))
    (.num (soapToAttrOrig (some orig)).toNat)).toList ++
  [.cmp .eq (.col (ascii "jobs.jobid")) (.col (attrTable id ++ ascii ".jobid"))]

/-- Some alternatives as one conjunct; none of them is no conjunct. -/
def orExprs : List Expr → List Expr
  | [] => []
  | e :: es => [es.foldl .or e]

/-- The conjuncts of a condition. -/
def conditionExprs (c : IndexQuery) : List Expr :=
  (conditionId ctx c).elim [] (joinExprs c) ++ orExprs (c.record.filterMap (recordExpr ctx c))

/-- A condition that adds nothing to the text: it only asks that there is a job
    identifier. -/
def Silent (c : IndexQuery) : Prop := c.onJobid = true ∧ ∀ r ∈ c.record, r.op = .EXISTS

instance (c : IndexQuery) : Decidable (Silent c) := inferInstanceAs (Decidable (_ ∧ _))

variable {ctx} {c : IndexQuery} {i : ℕ}

theorem recordExpr_eq_none {r : IndexQueryRecord} : recordExpr ctx c r = none ↔ r.op = .EXISTS := by
  rcases hr : r.op <;> simp [recordExpr, compareOp, hr]

theorem filterMap_recordExpr_eq_nil :
    c.record.filterMap (recordExpr ctx c) = [] ↔ ∀ r ∈ c.record, r.op = .EXISTS := by
  rw [List.filterMap_eq_nil_iff]
  exact forall₂_congr fun r _ => recordExpr_eq_none

/-- The text that joins the table of an attribute. -/
theorem joinSql_eq {id : Bytes} (hid : ∀ b ∈ id, isHexDigit b = true) :
    ∃ ts, Lexes (joinSql ctx c id) ts ∧ Parses ts (joinExprs c id) := by
  have heq : Lexes (ascii "=") [.eq] := Lexes.of_lex (by decide)
  have hand : Lexes (ascii "AND") [.and] := Lexes.of_lex (by decide)
  have hjobid : Lexes (ascii "jobs.jobid") [.word (ascii "jobs.jobid")] := Lexes.of_lex (by decide)
  have hjobid' : operandOf (.word (ascii "jobs.jobid")) = some (.col (ascii "jobs.jobid")) := rfl
  -- the join itself
  have hlex : Lexes (ascii "jobs.jobid = attr_" ++ (ctx.quoting.quote (some id) ++ ascii ".jobid"))
      [.word (ascii "jobs.jobid"), .eq, .word (attrTable id ++ ascii ".jobid")] := by
    rw [quote_id ctx hid, ← List.append_assoc]
    exact hjobid.space (heq.space (lexes_attrColumn hid (by decide)))
  have hparse : Parses [.word (ascii "jobs.jobid"), .eq, .word (attrTable id ++ ascii ".jobid")]
      [.cmp .eq (.col (ascii "jobs.jobid")) (.col (attrTable id ++ ascii ".jobid"))] :=
    .cmp hjobid' rfl (operandOf_attrColumn _)
  rcases ho : c.origin with _ | orig
  · rw [joinSql, joinExprs, ho, List.nil_append]
    exact ⟨_, hlex, hparse⟩
  · -- the origin, with the join behind it
    have hsplit : ascii ".origin = " = ascii ".origin" ++ (ascii " " ++ (ascii "=" ++ ascii " ")) := rfl
    have hsplit' : ascii " AND " = ascii " " ++ (ascii "AND" ++ ascii " ") := rfl
    rw [joinSql, joinExprs, ho, hsplit, hsplit']
    simp only [List.append_assoc]
    rw [quote_id ctx hid] at hlex ⊢
    rw [← List.append_assoc, ← List.append_assoc]
    refine ⟨_, (lexes_attrColumn hid (by decide)).space
      (heq.space ((lexes_printNat _).space (hand.space hlex))), ?_⟩
    exact Parses.and (.cmp (operandOf_attrColumn _) rfl (operandOf_printNat _)) hparse

/-- Whether a condition may start, or one has just ended. -/
def modeOf (start : Bool) : Mode := if start then .start else .done

/-- What the condition at the index `i` makes of the place the text is at. -/
def shapeStep (start : Bool) (i : ℕ) (c : IndexQuery) : Option Bool :=
  if Silent c then some start
  else if c.onJobid then if start then some false else none
  else if start = true ↔ i = 0 then some false
  else none

/-- What the conditions from the index `i` on make of it. -/
def shape : Bool → ℕ → List IndexQuery → Option Bool
  | start, _, [] => some start
  | start, i, c :: cs => (shapeStep start i c).bind fun start => shape start (i + 1) cs

/-- Tokens that are read as some conjuncts where `start` says, and leave the
    parser where `next` says, if at all. -/
def Reads (ts : List Token) (start : Bool) (next : Option Bool) (es : List Expr) : Prop :=
  ∀ stack f, ts.foldlM Parser.step ⟨stack, f, modeOf start⟩ =
    next.map fun b => ⟨stack, es.foldl Frame.push f, modeOf b⟩

theorem Reads.append {ts ts' : List Token} {start : Bool} {next : Option Bool}
    {next' : Bool → Option Bool} {es es' : List Expr} (h : Reads ts start next es)
    (h' : ∀ b ∈ next, Reads ts' b (next' b) es') :
    Reads (ts ++ ts') start (next.bind next') (es ++ es') := by
  intro stack f
  rw [List.foldlM_append, h]
  rcases next with _ | b
  · rfl
  · rw [Option.map_some, Option.bind_eq_bind, Option.bind_some, h' b rfl, Option.bind_some,
      List.foldl_append]

theorem reads_of_parses {ts : List Token} {es : List Expr} (h : Parses ts es) :
    Reads ts true (some false) es := h

/-- The text of a condition whose records have one. -/
theorem conditionSql_of_getSqlOr (hattr : c.attr ≠ none) {qor : Bytes}
    (hqor : getSqlOr ctx c (conditionId ctx c) = .ok (some qor)) :
    conditionSql ctx i c =
      let qa := (conditionId ctx c).elim []
        fun id => (if i = 0 then [] else ascii "AND ") ++ joinSql ctx c id
      .ok (if qor = [] then qa
        else qa ++ ((if qa = [] then [] else ascii " AND ") ++ (ascii "(" ++ (qor ++ ascii ")")))) := by
  obtain ⟨attr, hattr⟩ := Option.ne_none_iff_exists'.1 hattr
  rw [conditionSql, hattr, hqor]
  rcases conditionId ctx c with _ | id
  · by_cases hne : qor = [] <;> simp [Exec.deref, hne]
  · by_cases hne : qor = [] <;> simp [Exec.deref, hne]

/-- The text of a condition on the job identifier: its alternatives, if there
    are any. -/
theorem conditionSql_jobid (hc : Buildable ctx c) (hj : c.onJobid = true) :
    if Silent c then conditionSql ctx i c = .ok [] ∧ conditionExprs ctx c = []
    else ∃ text ts, conditionSql ctx i c = .ok text ∧ text ≠ [] ∧ Lexes text (.lpar :: ts) ∧
      Parses (.lpar :: ts) (conditionExprs ctx c) := by
  obtain ⟨qor, hqor, halt⟩ := getSqlOr_eq hc.writable
  have hid := (@conditionId_eq_none ctx c).2 hj
  rw [conditionSql_of_getSqlOr hc.attr hqor, hid, conditionExprs, hid]
  by_cases hs : Silent c
  · rw [if_pos hs, filterMap_recordExpr_eq_nil.2 hs.2]
    rw [filterMap_recordExpr_eq_nil.2 hs.2] at halt
    obtain rfl : qor = [] := halt
    exact ⟨rfl, rfl⟩
  · rw [if_neg hs]
    rcases hes : c.record.filterMap (recordExpr ctx c) with _ | ⟨e, es⟩
    · exact absurd ⟨hj, filterMap_recordExpr_eq_nil.1 hes⟩ hs
    · rw [hes] at halt
      obtain ⟨hne, ts, f, hlex, hts, hf⟩ := halt
      refine ⟨ascii "(" ++ (qor ++ ascii ")"), _, ?_, by simp [ascii], hlex.parens,
        Parses.parens hts hf⟩
      simp [hne]

/-- The text of a condition on an attribute: the join, and its alternatives, if
    there are any. -/
theorem conditionSql_attr (hc : Buildable ctx c) (hj : ¬c.onJobid = true) : ∃ body ts,
    conditionSql ctx i c = .ok ((if i = 0 then [] else ascii "AND ") ++ body) ∧ body ≠ [] ∧
      Lexes body ts ∧ Parses ts (conditionExprs ctx c) := by
  obtain ⟨qor, hqor, halt⟩ := getSqlOr_eq hc.writable
  obtain ⟨id, hid⟩ := Option.ne_none_iff_exists'.1 (mt (@conditionId_eq_none ctx c).1 hj)
  obtain ⟨ts, hlex, hparse⟩ := @joinSql_eq ctx c id (conditionId_digits hid)
  have hand : Lexes (ascii "AND") [.and] := Lexes.of_lex (by decide)
  have hjoin : joinSql ctx c id ≠ [] := by simp [joinSql, ascii]
  rw [conditionSql_of_getSqlOr hc.attr hqor, hid, conditionExprs, hid]
  rcases hes : c.record.filterMap (recordExpr ctx c) with _ | ⟨e, es⟩
  · rw [hes] at halt
    obtain rfl : qor = [] := halt
    refine ⟨joinSql ctx c id, ts, rfl, hjoin, hlex, ?_⟩
    rw [orExprs, List.append_nil]
    exact hparse
  · rw [hes] at halt
    obtain ⟨hne, ts', f, hlex', hts', hf⟩ := halt
    refine ⟨joinSql ctx c id ++ (ascii " AND " ++ (ascii "(" ++ (qor ++ ascii ")"))), _, ?_,
      by simp [hjoin], hlex.space (hand.space hlex'.parens), hparse.and (Parses.parens hts' hf)⟩
    simp [hne, hjoin]

/-- The text of a condition, what it is read as, and when there is none. -/
theorem conditionSql_eq (hc : Buildable ctx c) (i : ℕ) : ∃ text ts,
    conditionSql ctx i c = .ok text ∧ Lexes text ts ∧ (text = [] → ts = []) ∧
      ∀ start, (i = 0 → start = true) → Reads ts start (shapeStep start i c) (conditionExprs ctx c) := by
  by_cases hj : c.onJobid = true
  · have h := conditionSql_jobid (i := i) hc hj
    split_ifs at h with hs
    · refine ⟨[], [], h.1, .nil, fun _ => rfl, fun start _ => ?_⟩
      rw [shapeStep, if_pos hs, h.2]
      exact fun stack f => rfl
    · obtain ⟨text, ts, htext, hne, hlex, hparse⟩ := h
      refine ⟨text, _, htext, hlex, fun h => absurd h hne, fun start _ => ?_⟩
      rw [shapeStep, if_neg hs, if_pos hj]
      cases start with
      | true => exact reads_of_parses hparse
      | false =>
        intro stack f
        rw [List.foldlM_cons, modeOf, if_neg Bool.false_ne_true, step_lpar]
        rfl
  · obtain ⟨body, ts, hbody, hne, hlex, hparse⟩ := conditionSql_attr (i := i) hc hj
    have hs : ¬Silent c := fun h => hj h.1
    have hand : Lexes (ascii "AND") [.and] := Lexes.of_lex (by decide)
    simp only [shapeStep, if_neg hs, if_neg hj]
    by_cases hi : i = 0
    · rw [if_pos hi] at hbody
      refine ⟨_, ts, hbody, hlex, fun h => absurd h hne, fun start hstart => ?_⟩
      rw [if_pos (iff_of_true (hstart hi) hi), hstart hi]
      exact reads_of_parses hparse
    · rw [if_neg hi] at hbody
      refine ⟨_, _, hbody, hand.space hlex, fun h => by simp [hne] at h, fun start _ => ?_⟩
      cases start with
      | true =>
        rw [if_neg (by simp [hi])]
        intro stack f
        rw [List.singleton_append, List.foldlM_cons, modeOf, if_pos rfl, step_and_start]
        rfl
      | false =>
        rw [if_pos (by simp [hi])]
        intro stack f
        rw [List.singleton_append, List.foldlM_cons, modeOf, if_neg Bool.false_ne_true, step_and]
        exact hparse stack f

/-- A condition without a text. -/
theorem conditionSql_ne (hc : ¬Buildable ctx c) (text : Bytes) : conditionSql ctx i c ≠ .ok text := by
  intro h
  simp only [conditionSql, Exec.bind_eq_ok, Exec.deref_eq_ok] at h
  obtain ⟨attr, hattr, qor, hqor, h⟩ := h
  rcases qor with _ | qor
  · cases h
  · by_cases hw : ∀ r ∈ c.record, Writable ctx c r
    · exact hc ⟨by simp [hattr], hw⟩
    · exact getSqlOr_ne hw qor hqor

end Conditions

/-! ## The query -/

section Query

variable (ctx : IndexContext)

/-- The tables of the attributes of some conditions, each once, behind those
    already there. -/
def attrTables (cs : List IndexQuery) (tables : List Bytes) : List Bytes :=
  cs.foldl (fun tables c => (conditionId ctx c).elim tables (addAttrTable · tables)) tables

/-- Where the text of the conditions says something that SQL understands: its
    first part is either a comparison of the job identifier or the very first
    condition, and no later condition compares the job identifier. -/
def WellShaped (cs : List IndexQuery) : Prop := ∃ pre c post, cs = pre ++ c :: post ∧
  (∀ d ∈ pre, Silent d) ∧ ¬Silent c ∧ (c.onJobid = true ∨ pre = []) ∧
  ∀ d ∈ post, d.onJobid = true → Silent d

variable {ctx} {cs : List IndexQuery} {i : ℕ}

theorem shape_false (hi : i ≠ 0) : shape false i cs =
    if ∀ d ∈ cs, d.onJobid = true → Silent d then some false else none := by
  induction cs generalizing i with
  | nil => simp [shape]
  | cons c cs ih =>
    rw [shape, shapeStep]
    by_cases hs : Silent c
    · rw [if_pos hs, Option.bind_some, ih (Nat.succ_ne_zero i)]
      simp only [List.forall_mem_cons, hs, implies_true, true_and]
    · rw [if_neg hs]
      by_cases hj : c.onJobid = true
      · rw [if_pos hj, if_neg Bool.false_ne_true, if_neg fun h => hs (h c List.mem_cons_self hj)]
        rfl
      · rw [if_neg hj, if_pos (by simp [hi]), Option.bind_some, ih (Nat.succ_ne_zero i)]
        simp only [List.forall_mem_cons, hj, Bool.false_eq_true, false_implies, true_and]

/-- The text of the conditions is one condition exactly when they are well
    shaped. -/
theorem shape_true : shape true i cs = some false ↔ ∃ pre c post, cs = pre ++ c :: post ∧
    (∀ d ∈ pre, Silent d) ∧ ¬Silent c ∧ (c.onJobid = true ∨ pre = [] ∧ i = 0) ∧
    ∀ d ∈ post, d.onJobid = true → Silent d := by
  induction cs generalizing i with
  | nil => simp [shape]
  | cons c cs ih =>
    rw [shape, shapeStep]
    by_cases hs : Silent c
    · -- it adds nothing, so that the first part is among the others
      rw [if_pos hs, Option.bind_some, ih]
      constructor
      · rintro ⟨pre, d, post, rfl, hpre, hd, hpos, hpost⟩
        refine ⟨c :: pre, d, post, rfl, List.forall_mem_cons.2 ⟨hs, hpre⟩, hd, ?_, hpost⟩
        exact .inl (hpos.resolve_right fun h => Nat.succ_ne_zero i h.2)
      · rintro ⟨_ | ⟨c', pre⟩, d, post, heq, hpre, hd, hpos, hpost⟩
        · exact absurd ((List.cons.inj heq).1 ▸ hs) hd
        · refine ⟨pre, d, post, (List.cons.inj heq).2, (List.forall_mem_cons.1 hpre).2, hd, ?_, hpost⟩
          exact .inl (hpos.resolve_right fun h => List.cons_ne_nil _ _ h.1)
    · -- it is the first part
      have hfirst : (∃ pre d post, c :: cs = pre ++ d :: post ∧ (∀ d ∈ pre, Silent d) ∧ ¬Silent d ∧
          (d.onJobid = true ∨ pre = [] ∧ i = 0) ∧ ∀ d ∈ post, d.onJobid = true → Silent d) ↔
          (c.onJobid = true ∨ i = 0) ∧ ∀ d ∈ cs, d.onJobid = true → Silent d := by
        constructor
        · rintro ⟨_ | ⟨c', pre⟩, d, post, heq, hpre, hd, hpos, hpost⟩
          · obtain ⟨rfl, rfl⟩ := List.cons.inj heq
            exact ⟨hpos.imp_right And.right, hpost⟩
          · exact absurd ((List.cons.inj heq).1 ▸ hpre c' List.mem_cons_self) hs
        · rintro ⟨hpos, hpost⟩
          exact ⟨[], c, cs, rfl, by simp, hs, hpos.imp_right fun h => ⟨rfl, h⟩, hpost⟩
      rw [hfirst, if_neg hs]
      by_cases hj : c.onJobid = true
      · simp [hj, shape_false (Nat.succ_ne_zero i)]
      · by_cases hi : i = 0
        · simp [hj, hi, shape_false]
        · simp [hj, hi]

theorem whereFrom_eq (hcs : ∀ c ∈ cs, Buildable ctx c) (tables : List Bytes) {p qwhere : Bytes}
    {ts₀ : List Token} (hlex₀ : Lexes (p ++ qwhere) ts₀) : ∃ text ts,
      whereFrom ctx i cs (tables, qwhere) = .ok (attrTables ctx cs tables, text) ∧
      Lexes (p ++ text) (ts₀ ++ ts) ∧ ∀ start, (i = 0 → start = true) →
        Reads ts start (shape start i cs) (cs.flatMap (conditionExprs ctx)) := by
  induction cs generalizing i tables qwhere ts₀ with
  | nil =>
    refine ⟨qwhere, [], rfl, by rwa [List.append_nil], fun start _ stack f => rfl⟩
  | cons c cs ih =>
    rw [List.forall_mem_cons] at hcs
    obtain ⟨qa, ts, hqa, hlex, hnil, hreads⟩ := conditionSql_eq hcs.1 i
    have hlex' : Lexes (p ++ (qwhere ++ ((if qa = [] then [] else ascii " ") ++ qa))) (ts₀ ++ ts) := by
      by_cases hne : qa = []
      · rw [hnil hne, if_pos hne, hne, List.append_nil, List.append_nil, List.append_nil]
        exact hlex₀
      · rw [if_neg hne, ← List.append_assoc]
        exact hlex₀.space hlex
    obtain ⟨text, ts', htext, hlex'', hreads'⟩ := @ih (i + 1) hcs.2 _ _ _ hlex'
    refine ⟨text, ts ++ ts', ?_, by rwa [← List.append_assoc], fun start hstart => ?_⟩
    · rw [whereFrom, hqa]
      exact htext
    · rw [List.flatMap_cons]
      exact (hreads start hstart).append fun b _ => hreads' b fun h => absurd h (Nat.succ_ne_zero i)

theorem whereFrom_ne (hcs : ¬∀ c ∈ cs, Buildable ctx c) (acc r : List Bytes × Bytes) :
    whereFrom ctx i cs acc ≠ .ok r := by
  induction cs generalizing i acc with
  | nil => simp at hcs
  | cons c cs ih =>
    obtain ⟨tables, qwhere⟩ := acc
    simp only [whereFrom, ne_eq, Exec.bind_eq_ok, not_exists, not_and]
    intro qa hqa
    by_cases hc : Buildable ctx c
    · exact ih (fun h => hcs (List.forall_mem_cons.2 ⟨hc, h⟩)) _
    · exact absurd hqa (conditionSql_ne hc qa)

/-- The condition of tokens that are read as some conjuncts. -/
theorem parseExpr_of_reads {ts : List Token} {next : Option Bool} {es : List Expr}
    (h : Reads ts true next es) : parseExpr ts =
      next.bind fun start => if start then none else (es.foldl Frame.push .empty).close := by
  rw [parseExpr, show Mode.start = modeOf true from rfl, h]
  rcases next with _ | _ | _
  · rfl
  · rfl
  · rfl

variable (ctx)

/-- A client whose name can stand between quotes. -/
def Identified (peer : Bytes) : Prop :=
  ctx.peer = some peer ∧ ch '\'' ∉ peer ∧ ch '\\' ∉ peer

/-- The tables of the query. -/
def queryTables (cs : List IndexQuery) : List Bytes :=
  ascii "jobs" :: ((if ctx.conf.noAuth then [] else [ascii "users"]) ++
    (attrTables ctx cs []).map attrTable)

/-- The test of the owner, on a server that makes it. -/
def ownerExprs : List Expr :=
  if ctx.conf.noAuth then []
  else [.and (.cmp .eq (.col (ascii "jobs.ownerid")) (.col (ascii "users.userid")))
    (.cmp .eq (.col (ascii "users.cert_subj")) (.lit (ctx.peer.getD nullText)))]

/-- All conjuncts of the query. -/
def queryExprs (cs : List IndexQuery) : List Expr :=
  ownerExprs ctx ++ cs.flatMap (conditionExprs ctx)

variable {ctx}

theorem mem_addAttrTable {id id' : Bytes} {tables : List Bytes} :
    id ∈ addAttrTable id' tables ↔ id ∈ tables ∨ id = id' := by
  unfold addAttrTable
  split_ifs with h
  · exact ⟨.inl, fun h' => h'.elim (fun h' => h') fun h' => h' ▸ h⟩
  · rw [List.mem_append, List.mem_singleton]

/-- The tables of the query are those of the attributes of its conditions, … -/
theorem mem_attrTables {id : Bytes} {tables : List Bytes} :
    id ∈ attrTables ctx cs tables ↔ id ∈ tables ∨ ∃ c ∈ cs, conditionId ctx c = some id := by
  induction cs generalizing tables with
  | nil => simp [attrTables]
  | cons c cs ih =>
    have hcons : attrTables ctx (c :: cs) tables =
        attrTables ctx cs ((conditionId ctx c).elim tables (addAttrTable · tables)) := rfl
    rw [hcons, ih]
    rcases hc : conditionId ctx c with _ | id'
    · simp [hc]
    · simp only [Option.elim_some, mem_addAttrTable, List.exists_mem_cons_iff, hc, Option.some.injEq,
        or_assoc, eq_comm]

/-- … each once. -/
theorem nodup_attrTables {tables : List Bytes} (ht : tables.Nodup) :
    (attrTables ctx cs tables).Nodup := by
  induction cs generalizing tables with
  | nil => exact ht
  | cons c cs ih =>
    refine @ih ((conditionId ctx c).elim tables (addAttrTable · tables)) ?_
    rcases conditionId ctx c with _ | id
    · exact ht
    · rw [Option.elim_some, addAttrTable]
      split_ifs with h
      · exact ht
      · exact List.nodup_append.2 ⟨ht, List.nodup_singleton id, by
          rintro a ha b hb rfl
          exact h (List.mem_singleton.1 hb ▸ ha)⟩

theorem attrTables_digits : ∀ id ∈ attrTables ctx cs [], ∀ b ∈ id, isHexDigit b = true := by
  intro id hid
  obtain ⟨c, -, hc⟩ := (mem_attrTables.1 hid).resolve_left List.not_mem_nil
  exact conditionId_digits hc

/-- The text of the tables of attributes. -/
theorem lexes_tables {p : Bytes} {ts : List Token} (hp : Lexes p ts) {tables : List Bytes}
    (ht : ∀ id ∈ tables, ∀ b ∈ id, isHexDigit b = true) :
    Lexes (p ++ tables.flatMap fun id => ascii ", attr_" ++ id)
      (ts ++ (tables.map attrTable).flatMap fun w => [.comma, .word w]) := by
  induction tables generalizing p ts with
  | nil => simpa using hp
  | cons id tables ih =>
    rw [List.forall_mem_cons] at ht
    have hcomma : LexesIdle (ascii ", ") [.comma] := fun ts₀ => rfl
    have htable : Lexes (ascii ", attr_" ++ id) [.comma, .word (attrTable id)] := by
      have hid := lexes_attrColumn ht.1 (c := []) (by simp)
      rw [List.append_nil] at hid
      exact hcomma.append hid
    have hnext := ih (hp.append rfl htable) ht.2
    simp only [List.append_assoc] at hnext
    exact hnext

/-- The tokens of the query in front of its condition. -/
def queryTokens (ctx : IndexContext) (cs : List IndexQuery) : List Token :=
  headTokens (ascii "dg_jobid") [ascii "ps"] (ascii "jobs") (queryTables ctx cs).tail

/-- The text in front of the conditions, and how the test of the owner is read,
    on a server that makes none, … -/
theorem head_noAuth (hauth : ctx.conf.noAuth = true) : ∃ p ts,
    (∀ qwhere, whereFrom ctx 0 cs ([], []) = .ok (attrTables ctx cs [], qwhere) →
      queryText ctx cs = .ok (p ++ qwhere)) ∧
    Lexes p (queryTokens ctx cs ++ ts) ∧ Reads ts true (some true) (ownerExprs ctx) := by
  have hhead : Lexes (ascii "SELECT DISTINCT dg_jobid,ps FROM jobs")
      [.word (ascii "SELECT"), .word (ascii "DISTINCT"), .word (ascii "dg_jobid"), .comma,
        .word (ascii "ps"), .word (ascii "FROM"), .word (ascii "jobs")] := Lexes.of_lex (by decide)
  have hwhere : Lexes (ascii "WHERE") [.word (ascii "WHERE")] := Lexes.of_lex (by decide)
  have hlex := (lexes_tables hhead (@attrTables_digits ctx cs)).space hwhere
  refine ⟨_, [], fun qwhere h => ?_, hlex.of_eq ?_, ?_⟩
  · have hsplit : ascii " WHERE" = ascii " " ++ ascii "WHERE" := by decide
    simp only [queryText, h, Exec.ok_bind, hauth, if_true, hsplit, List.append_assoc]
    rfl
  · rw [List.append_nil, queryTokens, queryTables, hauth]
    exact (List.append_assoc [_, _, _, _, _, _, _] _ _).symm
  · rw [ownerExprs, hauth]
    exact fun stack f => rfl

/-- The tokens of the test of the owner. -/
def ownerTokens (peer : Bytes) : List Token :=
  [.word (ascii "jobs.ownerid"), .eq, .word (ascii "users.userid"), .and,
    .word (ascii "users.cert_subj"), .eq, .lit peer]

/-- … and on one that does. -/
theorem head_auth (hauth : ctx.conf.noAuth = false) {peer : Bytes} (hpeer : Identified ctx peer) :
    ∃ p ts, (∀ qwhere, whereFrom ctx 0 cs ([], []) = .ok (attrTables ctx cs [], qwhere) →
      queryText ctx cs = .ok (p ++ qwhere)) ∧
    Lexes p (queryTokens ctx cs ++ ts) ∧ Reads ts true (some true) (ownerExprs ctx) := by
  obtain ⟨hpeer, hq, he⟩ := hpeer
  have hhead : Lexes (ascii "SELECT DISTINCT dg_jobid,ps FROM jobs,users")
      [.word (ascii "SELECT"), .word (ascii "DISTINCT"), .word (ascii "dg_jobid"), .comma,
        .word (ascii "ps"), .word (ascii "FROM"), .word (ascii "jobs"), .comma,
        .word (ascii "users")] := Lexes.of_lex (by decide)
  -- the test ends within its last literal, so that it is read in three parts
  have htest : LexesIdle (ascii "WHERE (jobs.ownerid = users.userid AND users.cert_subj=")
      [.word (ascii "WHERE"), .lpar, .word (ascii "jobs.ownerid"), .eq,
        .word (ascii "users.userid"), .and, .word (ascii "users.cert_subj"), .eq] := .of_feed rfl
  have hname : Lexes (ascii "'" ++ (peer ++ ascii "'")) [.lit peer] :=
    Lexes.lit fun ts => by rw [Lexer.feed_lit hq he, List.nil_append]
  have hend : Lexes (ascii "'" ++ (peer ++ (ascii "'" ++ ascii ") AND"))) [.lit peer, .rpar, .and] := by
    have hclose : Lexes (ascii ") AND") [.rpar, .and] := Lexes.of_lex (by decide)
    have h := hname.append rfl hclose
    rw [List.append_assoc, List.append_assoc] at h
    exact h
  have hlex := (lexes_tables hhead (@attrTables_digits ctx cs)).space
    (htest.append hend)
  have hown : Parses (Token.lpar :: (ownerTokens peer ++ [Token.rpar])) (ownerExprs ctx) := by
    rw [ownerExprs, hauth, hpeer]
    exact Parses.parens (.of_parses (Parses.and (.cmp rfl rfl rfl) (.cmp rfl rfl rfl))) rfl
  refine ⟨_, Token.lpar :: (ownerTokens peer ++ [Token.rpar]) ++ [Token.and], fun qwhere h => ?_,
    hlex.of_eq ?_, fun stack f => ?_⟩
  · have hsplit : ascii " WHERE (jobs.ownerid = users.userid AND users.cert_subj='" =
        ascii " " ++ (ascii "WHERE (jobs.ownerid = users.userid AND users.cert_subj=" ++ ascii "'") := by
      decide
    have hsplit' : ascii "') AND" = ascii "'" ++ ascii ") AND" := by decide
    rw [queryText, h, Exec.ok_bind, hauth, hpeer, Option.getD_some, hsplit, hsplit']
    simp only [List.append_assoc]
    rfl
  · rw [queryTokens, queryTables, hauth]
    simp [headTokens, nameTokens, ownerTokens, Token.and]
  · rw [List.foldlM_append, modeOf, if_pos rfl, hown stack f]
    rfl

/-- What the database makes of the text of a query. -/
theorem parse_queryText (hcs : ∀ c ∈ cs, Buildable ctx c)
    (hpeer : ctx.conf.noAuth = false → ∃ peer, Identified ctx peer) :
    ∃ text, queryText ctx cs = .ok text ∧ Sql.parse text =
      ((shape true 0 cs).bind fun start => if start then none
        else ((queryExprs ctx cs).foldl Frame.push .empty).close).map
          (Select.mk [ascii "dg_jobid", ascii "ps"] (queryTables ctx cs)) := by
  obtain ⟨p, ts, htext, hlex, hreads⟩ : ∃ p ts,
      (∀ qwhere, whereFrom ctx 0 cs ([], []) = .ok (attrTables ctx cs [], qwhere) →
        queryText ctx cs = .ok (p ++ qwhere)) ∧
      Lexes p (queryTokens ctx cs ++ ts) ∧
      Reads ts true (some true) (ownerExprs ctx) := by
    rcases hauth : ctx.conf.noAuth with _ | _
    · obtain ⟨peer, hpeer⟩ := hpeer hauth
      exact head_auth hauth hpeer
    · exact head_noAuth hauth
  obtain ⟨qwhere, ts', hwhere, hlex', hreads'⟩ :=
    @whereFrom_eq ctx cs 0 hcs [] p [] _ (by rwa [List.append_nil])
  have hall : Reads (ts ++ ts') true (shape true 0 cs) (queryExprs ctx cs) :=
    hreads.append fun b hb => Option.some.inj hb ▸ hreads' true fun _ => rfl
  refine ⟨_, htext qwhere hwhere, ?_⟩
  rw [Sql.parse, hlex'.lex, Option.bind_some, List.append_assoc, queryTokens,
    parseSelect_headTokens, parseExpr_of_reads hall]
  rfl

end Query

end JobProvenance
