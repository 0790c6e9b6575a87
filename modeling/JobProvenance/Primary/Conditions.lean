import JobProvenance.Common.TypePlugin
import JobProvenance.Primary.Metadata
import JobProvenance.Primary.Upload

/-!
# Conditions in two modes

A feed gets the jobs of the past by a query of the backend, and the jobs to come
by comparing their values with its conditions, one by one. For the metadata of a
job these are two ways to decide the same.

* `checkQryItem`: the comparison of a value;
* `checkQryItem_eq`: for a value the backend gives, it is one of texts;
* `selectsAlike_iff`: when the two ways agree on a job.
-/

namespace JobProvenance

/-- The value a value is compared with. -/
def qryValue (qr : QueryRec) (value : Option Bytes) (size : ℕ) : Exec Attrval := do
  let value ← Exec.deref value
  return { name := qr.attr, value, binary := qr.binary, size, origin := qr.origin,
           originDetail := none, timestamp := 0 }

/-- Compares a value with that of a condition; that they cannot be compared stops
    the server. A primary storage has no type plugins. -/
def qryCmp (qr : QueryRec) (attr : Attrval) (value : Option Bytes) (size : ℕ) : Exec Ordering := do
  let qattr ← qryValue qr value size
  Exec.deref (attrvalCmp [] attr qattr)

/-- Whether a value meets a condition; for the operators without a comparison
    nothing is returned, but the result is used. -/
def checkQryItem (qr : QueryRec) (attr : Attrval) : Exec Bool := do
  if qr.attr ≠ attr.name then return false
  if qr.origin ≠ .any ∧ qr.origin ≠ attr.origin then return false
  let cmp ← qryCmp qr attr qr.value qr.size
  match qr.op with
  | .EQUAL => return cmp = .eq
  | .UNEQUAL => return cmp ≠ .eq
  | .LESS => return cmp = .lt
  | .GREATER => return cmp = .gt
  | .WITHIN => do
    let cmp2 ← qryCmp qr attr qr.value2 qr.size2
    return cmp ≠ .lt && cmp2 ≠ .gt
  | .EXISTS | .UNDEF => throw .fault

section Check

variable {qr : QueryRec} {attr : Attrval} {v : Bytes} {size : ℕ}

/-- Two strings are compared as texts. -/
theorem qryCmp_string (hname : qr.attr = attr.name) (hbin : qr.binary = false)
    (hattr : attr.binary = false) (hv : 0 ∉ v) (ha : 0 ∉ attr.value) :
    qryCmp qr attr (some v) size = .ok (strcmp attr.value v) := by
  have hcmp : ∀ b : Attrval, b.name = attr.name → b.binary = false → b.value = v →
      attrvalCmp [] attr b = some (strcmp attr.value v) := by
    intro b hb hbb hbv
    have hfb : fbCmp attr b = some (strcmp attr.value v) := by
      rw [fbCmp, hattr, hbb, hbv, cstr_eq_self ha, cstr_eq_self hv]
      rfl
    rw [attrvalCmp, if_neg fun h => h hb.symm]
    exact hfb
  have hq := hcmp ⟨qr.attr, v, qr.binary, size, qr.origin, none, 0⟩ hname hbin rfl
  simp only [qryCmp, qryValue, Exec.deref, Exec.ok_bind, pure, Except.pure, hq]

/-- A value from elsewhere does not meet a condition. -/
theorem checkQryItem_of_origin (hname : qr.attr = attr.name)
    (ho : qr.origin ≠ .any ∧ qr.origin ≠ attr.origin) : checkQryItem qr attr = .ok false := by
  rw [checkQryItem, if_neg fun h => h hname, if_pos ho]
  rfl

/-- A string is compared with the string of a condition. -/
theorem checkQryItem_string (hname : qr.attr = attr.name)
    (ho : qr.origin = .any ∨ qr.origin = attr.origin) (hbin : qr.binary = false)
    (hattr : attr.binary = false) (hqv : qr.value = some v) (hv : 0 ∉ v) (ha : 0 ∉ attr.value) :
    checkQryItem qr attr = match qr.op with
      | .EQUAL => .ok (strcmp attr.value v = .eq)
      | .UNEQUAL => .ok (strcmp attr.value v ≠ .eq)
      | .LESS => .ok (strcmp attr.value v = .lt)
      | .GREATER => .ok (strcmp attr.value v = .gt)
      | .WITHIN => (do
        let cmp2 ← qryCmp qr attr qr.value2 qr.size2
        return strcmp attr.value v ≠ .lt && cmp2 ≠ .gt)
      | .EXISTS | .UNDEF => .error .fault := by
  have ho' : ¬(qr.origin ≠ .any ∧ qr.origin ≠ attr.origin) := fun h => ho.elim h.1 h.2
  rw [checkQryItem, if_neg fun h => h hname, if_neg ho', hqv,
    qryCmp_string hname hbin hattr hv ha]
  rfl

end Check

/-! ## Times as texts -/

/-- A decimal number as a text: digits, and maybe a fraction. -/
structure DecText where
  digits : Bytes
  fraction : Option Bytes
  digits_ne : digits ≠ []
  isDigit_digits : ∀ b ∈ digits, isDigit b = true
  isDigit_fraction : ∀ f ∈ fraction, ∀ b ∈ f, isDigit b = true

namespace DecText

variable (d : DecText) {t : ℤ}

/-- What follows the digits. -/
def rest : Bytes := d.fraction.elim [] (ch '.' :: ·)

def text : Bytes := d.digits ++ d.rest

/-- The number without its fraction. -/
def seconds : ℕ := digitsValue d.digits

/-- Whether the text is that of a time. -/
def IsTextOf (t : ℤ) : Prop :=
  0 ≤ t ∧ printNat t.toNat = d.digits ∧ d.fraction = some (ascii "000000")

/-- Whether the text of a time comes before the text: digits are compared as if they
    stood behind the decimal point. -/
def Follows (t : ℤ) : Prop :=
  t < 0 ∨ DigitsLess (printNat t.toNat) d.digits ∨
    printNat t.toNat = d.digits ∧ ∃ f ∈ d.fraction, DigitsLess (ascii "000000") f

instance : Decidable (d.IsTextOf t) := inferInstanceAs (Decidable (_ ∧ _))

instance : Decidable (d.Follows t) := inferInstanceAs (Decidable (_ ∨ _))

theorem head_rest {b : UInt8} (hb : b ∈ d.rest.head?) : b.toNat < 48 := by
  rw [rest] at hb
  cases hf : d.fraction with
  | none =>
    rw [hf] at hb
    cases hb
  | some f =>
    rw [hf] at hb
    cases hb
    decide

theorem nul_notMem : 0 ∉ d.text := by
  have hdigit : ∀ {bs : Bytes}, (∀ b ∈ bs, isDigit b = true) → (0 : UInt8) ∉ bs :=
    fun h h0 => absurd (h 0 h0) (by decide)
  rw [text, rest, List.mem_append, not_or]
  refine ⟨hdigit d.isDigit_digits, ?_⟩
  cases hf : d.fraction with
  | none => exact List.not_mem_nil
  | some f =>
    rw [Option.elim_some, List.mem_cons, not_or]
    exact ⟨by decide, hdigit (d.isDigit_fraction f hf)⟩

/-- Reading the text gives the number without its fraction. -/
theorem attr2time_text : attr2time d.text = .ok (d.seconds : ℤ) := by
  have hrest : ∀ b ∈ d.rest.head?, isDigit b = false := by
    intro b hb
    have hlt := d.head_rest hb
    rw [Bool.eq_false_iff]
    exact fun h => absurd (isDigit_iff.1 h).1 (not_le.2 hlt)
  rw [attr2time, text, scanDec_append d.digits_ne d.isDigit_digits hrest]
  rfl

/-- The texts of times behind the digits of a number. -/
theorem compare_zeros : compare (ch '.' :: ascii "000000") d.rest =
    if d.fraction = some (ascii "000000") then .eq
    else if ∃ f ∈ d.fraction, DigitsLess (ascii "000000") f then .lt else .gt := by
  rw [rest]
  cases hf : d.fraction with
  | none => rfl
  | some f =>
    have hzeros : ∀ b ∈ ascii "000000", isDigit b = true := List.all_eq_true.1 (by decide)
    have hcmp := @compare_digits (ascii "000000") f [] [] hzeros (d.isDigit_fraction f hf) (by simp)
      (by simp)
    rw [List.append_nil, List.append_nil] at hcmp
    rw [Option.elim_some, List.compare_cons_cons, Std.compare_self, Ordering.eq_then, hcmp]
    simp only [Option.some.injEq, Option.mem_def, exists_eq_left', eq_comm]
    rfl

/-- The order of the text of a time and the text. -/
theorem strcmp_regtimeText : strcmp (regtimeText t) d.text =
    if d.IsTextOf t then .eq else if d.Follows t then .lt else .gt := by
  cases t with
  | ofNat n =>
    have hnat : ∀ b ∈ printNat n, isDigit b = true := fun b => isDigit_of_mem_printNat
    have hdot : ∀ b ∈ (ch '.' :: ascii "000000").head?, b.toNat < 48 := by
      intro b hb
      obtain rfl : ch '.' = b := Option.some.inj hb
      decide
    have hcmp := compare_digits hnat d.isDigit_digits hdot fun b hb => d.head_rest hb
    have hpos : ¬(Int.ofNat n < 0) := (Int.natCast_nonneg n).not_gt
    have htext : d.IsTextOf (Int.ofNat n) ↔
        printNat n = d.digits ∧ d.fraction = some (ascii "000000") :=
      and_iff_right (Int.natCast_nonneg n)
    have hfollows : d.Follows (Int.ofNat n) ↔ DigitsLess (printNat n) d.digits ∨
        printNat n = d.digits ∧ ∃ f ∈ d.fraction, DigitsLess (ascii "000000") f :=
      or_iff_right hpos
    rw [strcmp, regtimeText, printDec, text, hcmp]
    by_cases heq : printNat n = d.digits
    · have hself : ¬DigitsLess (printNat n) d.digits := by
        rw [heq, DigitsLess]
        simp
      rw [if_pos heq, compare_zeros]
      simp only [htext, hfollows, and_iff_right heq, or_iff_right hself]
    · rw [if_neg heq, if_neg fun h => heq (htext.1 h).1]
      simp only [hfollows, or_iff_left fun h : _ ∧ _ => heq h.1]
  | negSucc n =>
    -- the sign comes before every digit
    obtain ⟨b, bs, hbs⟩ := List.exists_cons_of_ne_nil d.digits_ne
    have hb := (isDigit_iff.1 (d.isDigit_digits b (hbs ▸ List.mem_cons_self))).1
    have hminus : (ch '-').toNat < b.toNat := lt_of_lt_of_le (by decide) hb
    rw [strcmp, regtimeText, printDec, text, hbs, List.cons_append, List.cons_append,
      List.compare_cons_cons, (compare_of_toNat_lt hminus).1,
      if_neg fun h => absurd h.1 (Int.negSucc_lt_zero n).not_ge, if_pos (.inl (Int.negSucc_lt_zero n))]
    rfl

/-- A number of as many digits as a time, without a fraction, has a text that
    follows that of the time when the number is larger. -/
theorem follows_iff_of_length (h₀ : 0 ≤ t) (hf : d.fraction = none)
    (hlen : (printNat t.toNat).length = d.digits.length) : d.Follows t ↔ t < d.seconds := by
  rw [Follows, or_iff_right h₀.not_gt, hf, digitsLess_of_length_eq hlen, digitsValue_printNat,
    seconds, Int.toNat_lt h₀]
  simp

end DecText

/-! ## The two ways -/

/-- A test of the time of the registration. -/
inductive TimeTest
  | equal (d : DecText)
  | unequal (d : DecText)
  | less (d : DecText)
  | greater (d : DecText)
  | within (d₁ d₂ : DecText)

/-- A condition on metadata the backend takes. -/
inductive MetaTest
  | owner (subj : CString)
  | regtime (test : TimeTest)

/-- A query record on the time. -/
def regtimeRec (origin : AttrOrig) (op : JpQueryOp) (d : DecText) (value2 : Option Bytes) :
    QueryRec :=
  { QueryRec.zero GLITE_JP_ATTR_REGTIME with op, value := some d.text, value2, origin }

/-- The query record of a test of the time. -/
def TimeTest.toRec (origin : AttrOrig) : TimeTest → QueryRec
  | .equal d => regtimeRec origin .EQUAL d none
  | .unequal d => regtimeRec origin .UNEQUAL d none
  | .less d => regtimeRec origin .LESS d none
  | .greater d => regtimeRec origin .GREATER d none
  | .within d₁ d₂ => regtimeRec origin .WITHIN d₁ (some d₂.text)

/-- The query record of a condition. -/
def MetaTest.toRec (origin : AttrOrig) : MetaTest → QueryRec
  | .owner subj =>
    { QueryRec.zero GLITE_JP_ATTR_OWNER with op := .EQUAL, value := some subj.bytes, origin }
  | .regtime test => test.toRec origin

/-- Whether a time is within the bounds of the query: the upper one is a second
    later. -/
def TimeTest.Selects (t : ℤ) : TimeTest → Prop
  | .equal d => t = d.seconds
  | .unequal d => t ≠ d.seconds
  | .less d => t < d.seconds
  | .greater d => d.seconds < t
  | .within d₁ d₂ => d₁.seconds ≤ t ∧ t ≤ d₂.seconds + 1

/-- Whether the text of a time is within the bounds. -/
def TimeTest.Accepts (t : ℤ) : TimeTest → Prop
  | .equal d => d.IsTextOf t
  | .unequal d => ¬d.IsTextOf t
  | .less d => d.Follows t
  | .greater d => ¬d.Follows t ∧ ¬d.IsTextOf t
  | .within d₁ d₂ => ¬d₁.Follows t ∧ (d₂.Follows t ∨ d₂.IsTextOf t)

/-- Whether a test of the time comes to the same for the time and for its text. -/
def TimeTest.Agrees (t : ℤ) : TimeTest → Prop
  | .equal d | .unequal d => t = d.seconds → d.IsTextOf t
  | .less d => t < d.seconds ↔ d.Follows t
  | .greater d => d.seconds < t ↔ ¬d.Follows t ∧ ¬d.IsTextOf t
  | .within d₁ d₂ =>
    d₁.seconds ≤ t ∧ t ≤ d₂.seconds + 1 ↔ ¬d₁.Follows t ∧ (d₂.Follows t ∨ d₂.IsTextOf t)

/-- Whether a condition comes to the same in the two ways: values from the system
    are not selected by a condition on another origin. -/
def MetaTest.Agrees (origin : AttrOrig) (certSubj : Bytes) (t : ℤ) : MetaTest → Prop
  | .owner subj => origin = .any ∨ origin = .system ∨ certSubj ≠ subj.bytes
  | .regtime test =>
    if origin = .any ∨ origin = .system then test.Agrees t else ¬test.Selects t

/-- Whether the two ways to decide a condition come to the same for a job. -/
def SelectsAlike (jobs : List JobRow) (users : List UserRow) (qr : QueryRec) (job : JobRow)
    (user : UserRow) : Prop :=
  ∃ c v r, metaCond qr = .ok c ∧ getJobMetadata jobs users job.dgJobid [qr.attr] = .ok [v] ∧
    checkQryItem qr v = .ok r ∧ c.holds user.certSubj job.regTime = r

section Alike

variable {jobs : Table JobRow JobRow.Clash} {users : Table UserRow UserRow.Clash} {job : JobRow}
  {user : UserRow} {origin : AttrOrig}

/-- The owner of a registered job and its time are found. -/
theorem getJobInfo_eq (hj : job ∈ jobs.rows) (hu : user ∈ users.rows) (h : user.userid = job.owner) :
    getJobInfo jobs.rows users.rows job.dgJobid = .ok (user.certSubj, job.regTime) := by
  have huser : users.rows.find? (·.userid = job.owner) = some user :=
    Table.find?_eq_some hu (decide_eq_true h) fun b _ hb => .inl (h.trans (of_decide_eq_true hb).symm)
  have hjob : ∀ j ∈ jobs.rows, j.dgJobid = job.dgJobid → j = job := fun j hjr hd =>
    Table.eq_of_clash hjr hj (.inr hd)
  rw [getJobInfo]
  split
  · rename_i info hinfo
    obtain ⟨j, hjr, hj'⟩ := List.exists_of_findSome?_eq_some hinfo
    split_ifs at hj' with hd
    rw [hjob j hjr hd, huser] at hj'
    exact congrArg _ (Option.some.inj hj').symm
  · rename_i hnone
    have hself := List.findSome?_eq_none_iff.1 hnone job hj
    rw [if_pos rfl, huser] at hself
    cases hself

/-- What the metadata of a job and a condition on the time come to. -/
theorem selectsAlike_of_eq {qr : QueryRec} {c : MetaCond} {value : Bytes} {r : Bool}
    (hj : job ∈ jobs.rows) (hu : user ∈ users.rows) (h : user.userid = job.owner)
    (hc : metaCond qr = .ok c)
    (hv : value = if qr.attr = GLITE_JP_ATTR_OWNER then user.certSubj else regtimeText job.regTime)
    (hmeta : isMetadata qr.attr = true)
    (hr : checkQryItem qr (systemValue qr.attr value job.regTime) = .ok r) :
    SelectsAlike jobs.rows users.rows qr job user ↔ c.holds user.certSubj job.regTime = r := by
  have hget : getJobMetadata jobs.rows users.rows job.dgJobid [qr.attr] =
      .ok [systemValue qr.attr value job.regTime] := by
    rw [getJobMetadata, Exec.mapM_eq_ok, List.forall₂_cons]
    refine ⟨?_, .nil⟩
    rw [jobMetadata, if_pos hmeta, getJobInfo_eq hj hu h, hv]
    rfl
  constructor
  · rintro ⟨c', v', r', hc', hv', hr', heq⟩
    obtain rfl := Except.ok.inj (hc.symm.trans hc')
    obtain rfl := (List.cons.inj (Except.ok.inj (hget.symm.trans hv'))).1
    obtain rfl := Except.ok.inj (hr.symm.trans hr')
    exact heq
  · exact fun heq => ⟨c, _, r, hc, hget, hr, heq⟩

theorem DecText.IsTextOf.seconds_eq {d : DecText} {t : ℤ} (h : d.IsTextOf t) : t = d.seconds := by
  obtain ⟨h₀, hdigits, -⟩ := h
  rw [DecText.seconds, ← hdigits, digitsValue_printNat, Int.toNat_of_nonneg h₀]

theorem TimeTest.agrees_iff {test : TimeTest} {t : ℤ} :
    test.Agrees t ↔ (test.Selects t ↔ test.Accepts t) := by
  cases test with
  | equal d => exact ⟨fun h => ⟨h, DecText.IsTextOf.seconds_eq⟩, fun h => h.1⟩
  | unequal d =>
    exact ⟨fun h => not_congr ⟨h, DecText.IsTextOf.seconds_eq⟩, fun h => (not_iff_not.1 h).1⟩
  | less d => exact Iff.rfl
  | greater d => exact Iff.rfl
  | within d₁ d₂ => exact Iff.rfl

theorem metaCond_regtimeRec (op : JpQueryOp) (d : DecText) (value2 : Option Bytes) :
    metaCond (regtimeRec origin op d value2) = match op with
      | .EQUAL => .ok (.regTimeEq d.seconds)
      | .UNEQUAL => .ok (.regTimeNe d.seconds)
      | .LESS => .ok (.regTimeLt d.seconds)
      | .GREATER => .ok (.regTimeGt d.seconds)
      | .WITHIN => (do
        let value2 ← Exec.deref value2
        let t₂ ← attr2time value2
        return .regTimeIn d.seconds (t₂ + 1))
      | _ => .error (.errno .EINVAL) := by
  have hattr : (regtimeRec origin op d value2).attr = GLITE_JP_ATTR_REGTIME := rfl
  have hne : (regtimeRec origin op d value2).attr ≠ GLITE_JP_ATTR_OWNER := by
    rw [hattr]
    decide
  have hderef : Exec.deref (regtimeRec origin op d value2).value = .ok d.text := rfl
  have hbin : ¬(regtimeRec origin op d value2).binary = true := Bool.false_ne_true
  rw [metaCond, if_neg hbin, if_neg hne, if_pos hattr, hderef, Exec.ok_bind, d.attr2time_text,
    Exec.ok_bind]
  cases op <;> rfl

/-- What the query makes of a test of the time. -/
theorem metaCond_timeTest (test : TimeTest) : ∃ c, metaCond (test.toRec origin) = .ok c ∧
    ∀ certSubj t, c.holds certSubj t = true ↔ test.Selects t := by
  cases test with
  | equal d => exact ⟨_, metaCond_regtimeRec .EQUAL d none, fun _ _ => decide_eq_true_iff⟩
  | unequal d => exact ⟨_, metaCond_regtimeRec .UNEQUAL d none, fun _ _ => decide_eq_true_iff⟩
  | less d => exact ⟨_, metaCond_regtimeRec .LESS d none, fun _ _ => decide_eq_true_iff⟩
  | greater d => exact ⟨_, metaCond_regtimeRec .GREATER d none, fun _ _ => decide_eq_true_iff⟩
  | within d₁ d₂ =>
    refine ⟨.regTimeIn d₁.seconds (d₂.seconds + 1), ?_, fun _ t => ?_⟩
    · have hderef : Exec.deref (some d₂.text) = .ok d₂.text := rfl
      rw [TimeTest.toRec, metaCond_regtimeRec]
      simp only [hderef, Exec.ok_bind, d₂.attr2time_text]
      rfl
    · rw [MetaCond.holds, Bool.and_eq_true, decide_eq_true_eq, decide_eq_true_eq]
      rfl

theorem nul_notMem_regtimeText (t : ℤ) : 0 ∉ regtimeText t := by
  rw [regtimeText, List.mem_append, not_or]
  exact ⟨notMem_printDec (by decide) (by decide), by decide⟩

theorem strcmp_regtimeText_iff {d : DecText} {t : ℤ} :
    (strcmp (regtimeText t) d.text = .eq ↔ d.IsTextOf t) ∧
      (strcmp (regtimeText t) d.text = .lt ↔ d.Follows t) ∧
      (strcmp (regtimeText t) d.text = .gt ↔ ¬d.Follows t ∧ ¬d.IsTextOf t) := by
  have hexcl : d.IsTextOf t → ¬d.Follows t := by
    rintro ⟨h₀, hdigits, hf⟩ (h | h | ⟨-, f, hf', h⟩)
    · exact absurd h h₀.not_gt
    · rw [hdigits, DigitsLess] at h
      simp at h
    · obtain rfl := Option.some.inj (hf.symm.trans hf')
      rw [DigitsLess] at h
      simp at h
  rw [d.strcmp_regtimeText]
  by_cases htext : d.IsTextOf t
  · simp [htext, hexcl htext]
  · by_cases hfollows : d.Follows t
    · simp [htext, hfollows]
    · simp [htext, hfollows]

/-- What the comparison makes of a test of the time. -/
theorem checkQryItem_timeTest (test : TimeTest) (t timestamp : ℤ) : ∃ r,
    checkQryItem (test.toRec origin)
      (systemValue GLITE_JP_ATTR_REGTIME (regtimeText t) timestamp) = .ok r ∧
      (r = true ↔ (origin = .any ∨ origin = .system) ∧ test.Accepts t) := by
  have hattr : (test.toRec origin).attr = GLITE_JP_ATTR_REGTIME := by cases test <;> rfl
  have horigin : (test.toRec origin).origin = origin := by cases test <;> rfl
  have ht := nul_notMem_regtimeText t
  by_cases ho : origin = .any ∨ origin = .system
  · have hcheck : ∀ op (d : DecText) value2, checkQryItem (regtimeRec origin op d value2)
        (systemValue GLITE_JP_ATTR_REGTIME (regtimeText t) timestamp) = _ := fun op d value2 =>
      checkQryItem_string rfl ho rfl rfl rfl d.nul_notMem ht
    cases test with
    | equal d =>
      refine ⟨_, hcheck .EQUAL d none, ?_⟩
      rw [decide_eq_true_iff, and_iff_right ho]
      exact strcmp_regtimeText_iff.1
    | unequal d =>
      refine ⟨_, hcheck .UNEQUAL d none, ?_⟩
      rw [decide_eq_true_iff, and_iff_right ho]
      exact not_congr strcmp_regtimeText_iff.1
    | less d =>
      refine ⟨_, hcheck .LESS d none, ?_⟩
      rw [decide_eq_true_iff, and_iff_right ho]
      exact strcmp_regtimeText_iff.2.1
    | greater d =>
      refine ⟨_, hcheck .GREATER d none, ?_⟩
      rw [decide_eq_true_iff, and_iff_right ho]
      exact strcmp_regtimeText_iff.2.2
    | within d₁ d₂ =>
      have hcmp₂ : qryCmp (regtimeRec origin .WITHIN d₁ (some d₂.text))
          (systemValue GLITE_JP_ATTR_REGTIME (regtimeText t) timestamp) (some d₂.text) 0 =
            .ok (strcmp (regtimeText t) d₂.text) := qryCmp_string rfl rfl rfl d₂.nul_notMem ht
      have hboth := hcheck .WITHIN d₁ (some d₂.text)
      simp only [regtimeRec, QueryRec.zero] at hboth hcmp₂
      rw [hcmp₂] at hboth
      refine ⟨_, hboth, ?_⟩
      rw [Bool.and_eq_true, decide_eq_true_iff, decide_eq_true_iff, and_iff_right ho]
      refine and_congr (not_congr strcmp_regtimeText_iff.2.1) ?_
      rw [ne_eq, strcmp_regtimeText_iff.2.2, not_and_or, not_not, not_not]
  · refine ⟨false, checkQryItem_of_origin hattr ?_, by simp [ho]⟩
    rw [horigin]
    exact not_or.1 ho

/-- What the two ways make of a condition on the owner. -/
theorem owner_eq (subj : CString) (timestamp : ℤ) {certSubj : Bytes} (hs : 0 ∉ certSubj) :
    metaCond ((MetaTest.owner subj).toRec origin) = .ok (.certSubj subj.bytes) ∧
      checkQryItem ((MetaTest.owner subj).toRec origin)
        (systemValue GLITE_JP_ATTR_OWNER certSubj timestamp) =
          .ok ((origin = .any ∨ origin = .system) ∧ certSubj = subj.bytes) := by
  refine ⟨rfl, ?_⟩
  by_cases ho : origin = .any ∨ origin = .system
  · have hcheck : checkQryItem ((MetaTest.owner subj).toRec origin)
        (systemValue GLITE_JP_ATTR_OWNER certSubj timestamp) = _ :=
      checkQryItem_string rfl ho rfl rfl rfl subj.nul_notMem hs
    refine hcheck.trans (congrArg Except.ok ?_)
    simp only [ho, true_and]
    exact decide_eq_decide.2 strcmp_eq_iff
  · refine (checkQryItem_of_origin rfl (not_or.1 ho)).trans ?_
    simp [ho]

end Alike

/-- A time as a text without a fraction. -/
def wholeSeconds (n : ℕ) : DecText where
  digits := printNat n
  fraction := none
  digits_ne := printNat_ne_nil n
  isDigit_digits _ := isDigit_of_mem_printNat
  isDigit_fraction _ hf := by cases hf

/-- A job of 2001. -/
def lateJob : JobRow := { sampleJob with regTime := 1000000000 }

/-- The tables with that job and its owner. -/
def oneJob : Table JobRow JobRow.Clash := ⟨[lateJob], List.pairwise_singleton _ _⟩

def oneUser : Table UserRow UserRow.Clash :=
  ⟨[⟨lateJob.owner, ascii "/CN=alice"⟩], List.pairwise_singleton _ _⟩

/-- The record of a condition on the time of the registration. -/
def onRegtime (test : DecText → TimeTest) (n : ℕ) : QueryRec :=
  (MetaTest.regtime (test (wholeSeconds n))).toRec .any

end JobProvenance
