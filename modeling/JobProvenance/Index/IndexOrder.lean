import JobProvenance.Index.Injection
import JobProvenance.Index.QueryMeaning
import JobProvenance.Lib.ByteOrder

/-!
# Comparing by the index

The table of an attribute has the values cut to the length of its column, and so
are the values a query compares them with. Strings that differ only behind are
equal then.

* `rowHolds_iff`: what the text of a condition says of the row of a value;
* `matchKept_iff`: a value that satisfies an operator is found, exactly when the
  operator does not tell apart what the index does not.
-/

namespace JobProvenance

open Sql

/-! ## Matches -/

section Matches

variable (ctx : IndexContext)

/-- A string a condition compares with, as a value of the attribute. -/
def conditionValue (c : IndexQuery) (s : Bytes) : Attrval where
  name := c.name
  value := s
  binary := false
  size := 0
  origin := soapToAttrOrig c.origin
  originDetail := none
  timestamp := 0

/-- A value satisfies an operator, by the order of the values of its attribute. -/
def QueryOp.Satisfied (plugins : List TplugData) (a b b2 : Attrval) : QueryOp → Prop
  | .EQUAL => attrvalCmp plugins a b = some .eq
  | .UNEQUAL => attrvalCmp plugins a b = some .lt ∨ attrvalCmp plugins a b = some .gt
  | .LESS => attrvalCmp plugins a b = some .lt
  | .GREATER => attrvalCmp plugins a b = some .gt
  | .WITHIN => (attrvalCmp plugins a b = some .gt ∨ attrvalCmp plugins a b = some .eq) ∧
    (attrvalCmp plugins a b2 = some .lt ∨ attrvalCmp plugins a b2 = some .eq)
  | .EXISTS => True

/-- A row of the table of an attribute meets the text of a comparison. -/
def RowHolds (c : IndexQuery) (r : IndexQueryRecord) (row : AttrRow) : Prop :=
  ∃ text e, recordSql ctx c (conditionId ctx c) r = some text ∧
    (Sql.lex text).bind Sql.parseExpr = some e ∧
    e.eval ctx.coll [(attrTable (attr2id ctx.md5 c.name), row.toRow)] = true

/-- A value that satisfies an operator is found by its row. -/
def MatchKept (c : IndexQuery) (op : QueryOp) (s s2 : Bytes) (av : Attrval) (row : AttrRow) : Prop :=
  op.Satisfied ctx.plugins av (conditionValue c s) (conditionValue c s2) →
    RowHolds ctx c ⟨op, some (.string s), some (.string s2)⟩ row

/-- An operator does not tell apart two strings that the index does not. -/
def SameInIndex (v s : Bytes) : QueryOp → Prop
  | .UNEQUAL => v.take GLITE_JPIS_INDEX_LENGTH = s.take GLITE_JPIS_INDEX_LENGTH → v = s
  | .LESS => v.take GLITE_JPIS_INDEX_LENGTH = s.take GLITE_JPIS_INDEX_LENGTH → strcmp v s ≠ .lt
  | .GREATER => v.take GLITE_JPIS_INDEX_LENGTH = s.take GLITE_JPIS_INDEX_LENGTH → strcmp v s ≠ .gt
  | .EQUAL | .WITHIN | .EXISTS => True

variable {ctx} {c : IndexQuery} {op : QueryOp} {r : IndexQueryRecord} {row : AttrRow}
  {s s2 jobid value : Bytes} {av : Attrval}

/-- A row meets the text of a comparison when its value meets the operator. -/
theorem rowHolds_iff (hj : c.onJobid = false) (hop : r.op ≠ .EXISTS) (hw : Writable ctx c r) :
    RowHolds ctx c r row ↔ r.op.Holds ctx.coll row.value
      (some ((operand ctx c r.value).getD nullText))
      (some ((operand ctx c r.value2).getD nullText)) := by
  obtain ⟨text, ts, e, htext, he, -, hlex, hparse⟩ := recordSql_eq hop hw
  have hparsed : (Sql.lex text).bind Sql.parseExpr = some e := by
    rw [hlex.lex, Option.bind_some, parseExpr, hparse]
    rfl
  have hid : conditionId ctx c = some (attr2id ctx.md5 c.name) := by
    rw [conditionId, if_neg (by simp [hj])]
  set t := attrTable (attr2id ctx.md5 c.name) with ht
  have hdot : ch '.' ∉ t := by
    intro h
    rcases List.mem_append.1 h with h | h
    · exact absurd h (by decide)
    · exact absurd (isHexDigit_of_mem_attr2id h) (by decide)
  have hcol : Env.col [(t, row.toRow)] (column ctx c) = some (.str row.value) := by
    rw [column, hid]
    exact @col_envOf [t] (fun _ => row.toRow) t (ascii "value") (List.mem_singleton_self _) hdot
  rw [← eval_recordExpr he hcol]
  constructor
  · rintro ⟨text', e', htext', hparsed', heval⟩
    obtain rfl := Option.some.inj (htext'.symm.trans htext)
    obtain rfl := Option.some.inj (hparsed'.symm.trans hparsed)
    exact heval
  · exact fun heval => ⟨text, e, htext, hparsed, heval⟩

/-- A string that satisfies an operator satisfies it in the index as well, exactly when
    the operator does not tell apart what the index does not. -/
theorem holds_take_iff {v : Bytes} (hop : op ≠ .EXISTS) :
    (op.Holds Collation.binary v (some s) (some s2) →
      op.Holds Collation.binary (v.take GLITE_JPIS_INDEX_LENGTH)
        (some (s.take GLITE_JPIS_INDEX_LENGTH)) (some (s2.take GLITE_JPIS_INDEX_LENGTH))) ↔
      SameInIndex v s op := by
  have hself : ∀ a : Bytes, strcmp a a = .eq := fun a => Std.compare_self
  have heq : ∀ a b : Bytes, strcmp a b = .eq ↔ a = b := fun a b => Std.compare_eq_iff_eq
  have hcut : ∀ b : Bytes,
      v.take GLITE_JPIS_INDEX_LENGTH = b.take GLITE_JPIS_INDEX_LENGTH ∨
        strcmp (v.take GLITE_JPIS_INDEX_LENGTH) (b.take GLITE_JPIS_INDEX_LENGTH) = strcmp v b := by
    intro b
    by_cases h : v.take GLITE_JPIS_INDEX_LENGTH = b.take GLITE_JPIS_INDEX_LENGTH
    · exact .inl h
    · exact .inr (strcmp_take _ h)
  have hcmp : ∀ a b, Collation.binary.cmp a b = strcmp a b := fun a b => rfl
  cases op with
  | EXISTS => exact absurd rfl hop
  | EQUAL =>
    simp only [QueryOp.Holds, SameInIndex, iff_true, hcmp, heq]
    exact fun h => congrArg _ h
  | UNEQUAL =>
    simp only [QueryOp.Holds, SameInIndex, hcmp, ne_eq, heq]
    exact not_imp_not
  | LESS =>
    simp only [QueryOp.Holds, SameInIndex, hcmp]
    constructor
    · intro h htake hlt
      have hlt' := h hlt
      rw [htake, hself] at hlt'
      cases hlt'
    · intro h hlt
      rcases hcut s with htake | htake
      · exact absurd hlt (h htake)
      · rw [htake, hlt]
  | GREATER =>
    simp only [QueryOp.Holds, SameInIndex, hcmp]
    constructor
    · intro h htake hgt
      have hgt' := h hgt
      rw [htake, hself] at hgt'
      cases hgt'
    · intro h hgt
      rcases hcut s with htake | htake
      · exact absurd hgt (h htake)
      · rw [htake, hgt]
  | WITHIN =>
    simp only [QueryOp.Holds, SameInIndex, iff_true, hcmp]
    rintro ⟨hlo, hhi⟩
    constructor
    · rcases hcut s with htake | htake
      · rw [htake, hself]
        decide
      · rwa [htake]
    · rcases hcut s2 with htake | htake
      · rw [htake, hself]
        decide
      · rwa [htake]

/-- The order of the values of an attribute without a plugin is that of strings. -/
theorem satisfied_iff (hplugin : getPlugin ctx.plugins av.name = none) (hc : c.attr = some av.name)
    (hav : av.binary = false) :
    op.Satisfied ctx.plugins av (conditionValue c s) (conditionValue c s2) ↔
      op.Holds Collation.binary (cstr av.value) (some (cstr s)) (some (cstr s2)) := by
  have hname : c.name = av.name := by
    rw [IndexQuery.name, hc, Option.getD_some]
  have hcmp : ∀ b, attrvalCmp ctx.plugins av (conditionValue c b) =
      some (Collation.binary.cmp (cstr av.value) (cstr b)) := by
    intro b
    simp [attrvalCmp, conditionValue, hname, hplugin, fbCmp, hav, strcmp, Collation.binary]
  cases op <;> simp only [QueryOp.Satisfied, QueryOp.Holds, hcmp, Option.some.injEq]
  case UNEQUAL => cases Collation.binary.cmp (cstr av.value) (cstr s) <;> simp
  case WITHIN =>
    cases Collation.binary.cmp (cstr av.value) (cstr s) <;>
      cases Collation.binary.cmp (cstr av.value) (cstr s2) <;> simp

/-- The column of a string is the string cut to its length, and so is what it is
    compared with. -/
theorem value_of_attrvalRow (hplugin : getPlugin ctx.plugins av.name = none)
    (hav : av.binary = false) (hrow : attrvalRow ctx jobid av = .ok (row, value)) :
    row.value = (cstr av.value).take GLITE_JPIS_INDEX_LENGTH := by
  obtain ⟨fullValue, -, h⟩ := Exec.bind_eq_ok.1 hrow
  have hvalue := congrArg (AttrRow.value ∘ Prod.fst) (Except.ok.inj h).symm
  simpa [attrvalToDbIndex, hplugin, fbToDbIndex, hav] using hvalue

theorem operand_string (hplugin : getPlugin ctx.plugins c.name = none) (hj : c.onJobid = false) :
    operand ctx c (some (.string s)) = some ((cstr s).take GLITE_JPIS_INDEX_LENGTH) := by
  simp [operand, hj, getSqlIndexvalue, attrvalToDbIndex, hplugin, fbToDbIndex]

/-- The row of a value is found when the cut strings satisfy what the strings do. -/
theorem matchKept_iff_holds (hcoll : ctx.coll = .binary)
    (hplugin : getPlugin ctx.plugins av.name = none) (hc : c.attr = some av.name)
    (hj : c.onJobid = false) (hav : av.binary = false)
    (hrow : attrvalRow ctx jobid av = .ok (row, value)) (hop : op ≠ .EXISTS) :
    MatchKept ctx c op s s2 av row ↔
      (op.Holds Collation.binary (cstr av.value) (some (cstr s)) (some (cstr s2)) →
        op.Holds Collation.binary ((cstr av.value).take GLITE_JPIS_INDEX_LENGTH)
          (some ((cstr s).take GLITE_JPIS_INDEX_LENGTH))
          (some ((cstr s2).take GLITE_JPIS_INDEX_LENGTH))) := by
  have hplugin' : getPlugin ctx.plugins c.name = none := by
    rw [IndexQuery.name, hc, Option.getD_some, hplugin]
  have hw : Writable ctx c ⟨op, some (.string s), some (.string s2)⟩ := by
    intro _ _
    rw [operand_string hplugin' hj]
    exact Option.some_ne_none _
  rw [MatchKept, satisfied_iff hplugin hc hav, rowHolds_iff hj hop hw,
    operand_string hplugin' hj, operand_string hplugin' hj, Option.getD_some, Option.getD_some,
    value_of_attrvalRow hplugin hav hrow, hcoll]

/-- The row of a value that satisfies an operator is found, exactly when the operator
    does not tell apart what the index does not. -/
theorem matchKept_iff (hcoll : ctx.coll = .binary)
    (hplugin : getPlugin ctx.plugins av.name = none) (hc : c.attr = some av.name)
    (hj : c.onJobid = false) (hav : av.binary = false)
    (hrow : attrvalRow ctx jobid av = .ok (row, value)) (hop : op ≠ .EXISTS) :
    MatchKept ctx c op s s2 av row ↔ SameInIndex (cstr av.value) (cstr s) op :=
  (matchKept_iff_holds hcoll hplugin hc hj hav hrow hop).trans (holds_take_iff hop)

end Matches

/-! ## A long value -/

/-- A string that is longer than the column, and ends with a given byte. -/
def longString (last : Char) : Bytes := List.replicate GLITE_JPIS_INDEX_LENGTH (ch 'a') ++ [ch last]

/-- A condition on the attribute of users. -/
def colorComparison : IndexQuery := ⟨some sampleAttr, none, []⟩

/-- A value of the attribute. -/
def colorValue (value : Bytes) : Attrval := { sampleQuoted false with value }

theorem attrvalRow_longString : ∃ row,
    attrvalRow (sampleServer false) (ascii "https://lb/job") (colorValue (longString 'b')) =
      .ok (row, (longString 'b').take GLITE_JPIS_INDEX_LENGTH) := by
  apply Exec.exists_of_map_snd
  decide +kernel

theorem onJobid_colorComparison : colorComparison.onJobid = false := by decide +kernel

/-- A value that is greater behind the length of the column is found where it is within
    bounds, … -/
theorem matchKept_iff_sample : ∃ row, MatchKept (sampleServer false) colorComparison .WITHIN
    (longString 'a') (longString 'c') (colorValue (longString 'b')) row := by
  obtain ⟨row, hrow⟩ := attrvalRow_longString
  exact ⟨row, (matchKept_iff rfl rfl rfl onJobid_colorComparison rfl hrow (by decide)).2 trivial⟩

/-- … and where it is greater or another it is not. -/
theorem not_matchKept_sample : ∃ row,
    attrvalRow (sampleServer false) (ascii "https://lb/job") (colorValue (longString 'b')) =
      .ok (row, (longString 'b').take GLITE_JPIS_INDEX_LENGTH) ∧
    ∀ op ∈ [QueryOp.GREATER, QueryOp.UNEQUAL], ¬MatchKept (sampleServer false) colorComparison op
      (longString 'a') [] (colorValue (longString 'b')) row := by
  obtain ⟨row, hrow⟩ := attrvalRow_longString
  have hcut : (cstr (longString 'b')).take GLITE_JPIS_INDEX_LENGTH =
      (cstr (longString 'a')).take GLITE_JPIS_INDEX_LENGTH := by
    decide +kernel
  refine ⟨row, hrow, fun op hop h => ?_⟩
  have hexists : op ≠ .EXISTS := by
    rintro rfl
    exact absurd hop (by decide)
  have hsame : SameInIndex (cstr (longString 'b')) (cstr (longString 'a')) op :=
    (holds_take_iff hexists).1
      ((matchKept_iff_holds rfl rfl rfl onJobid_colorComparison rfl hrow hexists).1 h)
  simp only [List.mem_cons, List.not_mem_nil, or_false] at hop
  obtain rfl | rfl := hop
  · exact hsame hcut (by decide +kernel)
  · exact absurd (hsame hcut) (by decide +kernel)

end JobProvenance
