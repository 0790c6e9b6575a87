import JobProvenance.Client.Fault
import JobProvenance.Lib.CString

/-!
# What is said of an error

The functions of a server stack their errors in its context, each with those it has found
as its reasons. The server prints them for its administrator, one line each, and they
are sent in a fault to the client, which prints them too. Both indent a line by its depth,
in buffers of different sizes.

* `ErrorContext.stackError`, `errorChain`: the errors of a server, and its text of them;
* `err2fault`, `clientPrint`: the fault of a server, and what a client makes of it, which
  returns what `clientCheckFault` does (`clientPrint_fst`);
* `reportsAgree_iff`: when the server and the client say the same.
-/

namespace JobProvenance

/-! ## Errors of a server -/

/-- An error of a function, without the errors that are its reasons. -/
structure JpError where
  code : ℤ
  desc : Option CString
  source : Option CString
  deriving DecidableEq

/-- The errors in the context of a server, the outermost first. -/
structure ErrorContext where
  error : List JpError

/-- Stacks an error on the others and returns its code. -/
def ErrorContext.stackError (ctx : ErrorContext) (err : JpError) : ℤ × ErrorContext :=
  (err.code, { ctx with error := err :: ctx.error })

/-- Forgets all errors. -/
def ErrorContext.clearError (ctx : ErrorContext) : ErrorContext := { ctx with error := [] }

/-- The text `printf` prints of a string that may be a null pointer. -/
def printed (s : Option CString) : Bytes := s.elim (ascii "(null)") CString.bytes

/-- The buffers in which a server puts a line, and what stands in front of it. -/
def LINE_BUF : ℕ := 2000
def CHAIN_INDENT : ℕ := 300

section Chain

variable (strerror : ℤ → CString)

/-- The line of an error. -/
def errorLine (indent : Bytes) (e : JpError) : Bytes :=
  indent ++ printed e.source ++ ascii ": " ++ (strerror e.code).bytes ++ ascii " (" ++
    e.desc.elim [] CString.bytes ++ ascii ")\n"

/-- A line in the room of its full length: what does not fit in the buffer is zeros. -/
def paddedLine (line : Bytes) : Bytes :=
  snprintf LINE_BUF line ++ List.replicate (line.length - (snprintf LINE_BUF line).length) 0

/-- Appends the lines of errors; the text in front of a line grows with its depth. -/
def chainLoop : List JpError → Bytes → Bytes → Exec Bytes
  | [], _, ret => .ok ret
  | e :: reasons, indent, ret =>
    let ret := ret ++ paddedLine (errorLine strerror indent e)
    if indent.length + 2 < CHAIN_INDENT then chainLoop reasons (indent ++ ascii "  ") ret
    else .error .fault

/-- The buffer with the text of all errors; the outermost is not looked for. -/
def errorChain (ctx : ErrorContext) : Exec Bytes :=
  match ctx.error with
  | [] => .error .fault
  | e :: reasons => chainLoop strerror (e :: reasons) [] []

/-! ## The fault of a server -/

/-- An error as it is sent. -/
structure FaultItem where
  code : ℤ
  source : Option CString
  text : CString
  description : Option CString
  deriving DecidableEq

/-- The details of a fault: whether they are errors of a server, a text, and the errors. -/
structure FaultDetail where
  generic : Bool
  any : Option CString
  fault : List FaultItem
  deriving DecidableEq

/-- The errors of a context as they are sent. -/
def jp2sError (error : List JpError) : List FaultItem :=
  error.map fun e => ⟨e.code, e.source, strerror e.code, e.desc⟩

/-- The details of the fault of a server; there are none without an error. -/
def err2fault (ctx : ErrorContext) : Option FaultDetail :=
  match jp2sError strerror ctx.error with
  | [] => none
  | f :: reasons => some ⟨true, none, f :: reasons⟩

end Chain

/-! ## What a client prints -/

/-- The details as far as a client looks at them to tell what has happened. -/
def FaultDetail.soapDetail (d : FaultDetail) : SoapDetail where
  generic := d.generic
  any := d.any.isSome
  fault := d.fault.head?.map fun f => ⟨f.code, d.fault.length - 1⟩

/-- The lines a client prints, and those it writes to the log of the system. -/
structure ClientOutput where
  out : List Bytes
  log : List Bytes
  deriving DecidableEq

/-- The errors of a server in the details of a fault, and the text if there are none. -/
def FaultDetail.split (d : FaultDetail) : List FaultItem × Option CString :=
  if d.generic then (d.fault, none) else ([], d.any)

/-- The line of an error, behind what stands in front of it. -/
def faultLine (front : Bytes) (f : FaultItem) : Bytes :=
  front ++ printed f.source ++ ascii ": " ++ f.text.bytes ++ ascii " (" ++ printed f.description ++
    ascii ")"

/-- Prints the errors; the text in front of a line grows with its depth. -/
def printFaults (before : Bytes) (toSyslog : Bool) : List FaultItem → Bytes → Exec ClientOutput
  | [], _ => .ok ⟨[], []⟩
  | f :: reasons, indent =>
    if indent.length + 2 < INDENT then do
      let output ← printFaults before toSyslog reasons (indent ++ ascii "  ")
      return ⟨(faultLine (before ++ indent) f ++ ascii "\n") :: output.out,
        if toSyslog then faultLine before f :: output.log else []⟩
    else .error .fault

/-- What stands in front of all lines. -/
def linePrefix (name : Option CString) : Bytes :=
  name.elim [] fun n => ch '[' :: n.bytes ++ ascii "] "

/-- Prints a result; what is not a fault of a server is printed by the library. -/
def clientPrint (name : Option CString) (toSyslog : Bool) (reason : CString) (err : SoapErr)
    (detail : Option FaultDetail) : Exec (ℤ × ClientOutput) := do
  let before := linePrefix name
  match ← clientGetFault err (detail.map FaultDetail.soapDetail) with
  | (0, _) => return (0, ⟨[before ++ ascii "OK\n"], []⟩)
  | (1, _) => do
    let (faults, xml) := detail.elim ([], none) FaultDetail.split
    let output ← printFaults before toSyslog faults (ascii "  ")
    let xmlOut := if faults = [] then xml.toList.map fun x =>
      before ++ ascii "  " ++ x.bytes ++ ascii "\n" else []
    let xmlLog := if faults = [] ∧ toSyslog = true then xml.toList.map CString.bytes else []
    return (-1, ⟨(before ++ reason.bytes ++ ascii "\n") :: (xmlOut ++ output.out),
      (if toSyslog then [reason.bytes] else []) ++ xmlLog ++ output.log⟩)
  | _ => return (-1, ⟨[], []⟩)

section Print

variable {before indent : Bytes} {toSyslog : Bool} {faults : List FaultItem} {output : ClientOutput}

/-- The lines of errors, each behind the text of its depth. -/
def faultLines (before : Bytes) : List FaultItem → Bytes → List Bytes
  | [], _ => []
  | f :: reasons, indent =>
    (faultLine (before ++ indent) f ++ ascii "\n") ::
      faultLines before reasons (indent ++ ascii "  ")

theorem length_deeper (indent : Bytes) : (indent ++ ascii "  ").length = indent.length + 2 :=
  List.length_append

/-- There is room below the first error and below all others. -/
theorem room_cons {α : Type} (a : α) (reasons : List α) (n size : ℕ) :
    (a :: reasons = [] ∨ n + 2 * (a :: reasons).length < size) ↔
      n + 2 < size ∧ (reasons = [] ∨ n + 2 + 2 * reasons.length < size) := by
  cases reasons with
  | nil => simp
  | cons b reasons =>
    simp only [List.length_cons, reduceCtorEq, false_or]
    omega

/-- All errors are printed, if there is room for what stands in front of one below the last. -/
theorem printFaults_eq (before : Bytes) (toSyslog : Bool) (faults : List FaultItem)
    (indent : Bytes) : printFaults before toSyslog faults indent =
      if faults = [] ∨ indent.length + 2 * faults.length < INDENT then
        .ok ⟨faultLines before faults indent,
          if toSyslog then faults.map (faultLine before) else []⟩
      else .error .fault := by
  induction faults generalizing indent with
  | nil =>
    rw [if_pos (.inl rfl), List.map_nil, ite_self]
    rfl
  | cons f reasons ih =>
    rw [printFaults, ih, length_deeper]
    have hcond := room_cons f reasons indent.length INDENT
    by_cases hroom : indent.length + 2 < INDENT
    · by_cases hrest : reasons = [] ∨ indent.length + 2 + 2 * reasons.length < INDENT
      · rw [if_pos hroom, if_pos hrest, if_pos (hcond.2 ⟨hroom, hrest⟩)]
        cases toSyslog <;> rfl
      · rw [if_pos hroom, if_neg hrest, if_neg fun h => hrest (hcond.1 h).2]
        rfl
    · rw [if_neg hroom, if_neg fun h => hroom (hcond.1 h).1]

/-- The errors of a fault, as the result is told from them. -/
def genericFault (faults : List FaultItem) : Option GenericFault :=
  faults.head?.map fun f => ⟨f.code, faults.length - 1⟩

theorem genericFault_eq_some {n : GenericFault} (h : genericFault faults = some n) :
    faults ≠ [] ∧ faults.length = n.reasons + 1 := by
  cases faults with
  | nil => cases h
  | cons f reasons =>
    obtain rfl := Option.some.inj h
    exact ⟨List.cons_ne_nil _ _, rfl⟩

theorem genericFault_eq_none (h : genericFault faults = none) : faults = [] := by
  cases faults with
  | nil => rfl
  | cons f reasons => cases h

/-- In a fault of a server the errors are those that are printed. -/
theorem clientGetFault_eq_one {err : SoapErr} {detail : Option FaultDetail}
    {f : Option GenericFault}
    (h : clientGetFault err (detail.map FaultDetail.soapDetail) = .ok (1, f)) :
    f = genericFault (detail.elim ([], none) FaultDetail.split).1 := by
  have hfault : ∀ d : Option FaultDetail,
      clientGetFault .SOAP_FAULT (d.map FaultDetail.soapDetail) = .ok (1, f) →
        f = genericFault (d.elim ([], none) FaultDetail.split).1 := by
    intro d hd
    cases d with
    | none =>
      cases hd
      rfl
    | some d =>
      obtain ⟨generic, any, fault⟩ := d
      cases generic with
      | true =>
        cases hd
        rfl
      | false =>
        cases any with
        | none => cases hd
        | some text =>
          cases hd
          rfl
  cases err with
  | SOAP_OK => cases h
  | SOAP_FAULT => exact hfault detail h
  | SOAP_SVR_FAULT => exact hfault detail h
  | other => cases h

/-- Printed or not, it returns the same. -/
theorem clientPrint_fst (name : Option CString) (toSyslog : Bool) (reason : CString) (err : SoapErr)
    (detail : Option FaultDetail) :
    Prod.fst <$> clientPrint name toSyslog reason err detail =
      clientCheckFault err (detail.map FaultDetail.soapDetail) := by
  unfold clientPrint clientCheckFault
  cases hfault : clientGetFault err (detail.map FaultDetail.soapDetail) with
  | error e => rfl
  | ok r =>
    obtain ⟨_ | _ | n, f⟩ := r
    · rfl
    · obtain rfl := clientGetFault_eq_one hfault
      simp only [Exec.ok_bind, printFaults_eq]
      cases hgeneric : genericFault (detail.elim ([], none) FaultDetail.split).1 with
      | none =>
        rw [if_pos (.inl (genericFault_eq_none hgeneric))]
        rfl
      | some n =>
        obtain ⟨hne, hlength⟩ := genericFault_eq_some hgeneric
        have hroom : ((detail.elim ([], none) FaultDetail.split).1 = [] ∨ (ascii "  ").length +
              2 * (detail.elim ([], none) FaultDetail.split).1.length < INDENT) ↔
            2 + 2 * (n.reasons + 1) < INDENT := by
          rw [or_iff_right hne, hlength]
          rfl
        by_cases h : 2 + 2 * (n.reasons + 1) < INDENT
        · rw [if_pos (hroom.2 h)]
          exact (if_pos h).symm
        · rw [if_neg (mt hroom.1 h)]
          exact (if_neg h).symm
    · rfl

end Print

/-! ## What the server and the client say -/

section Agree

variable (strerror : ℤ → CString)

/-- The lines of the errors of a server. -/
def errorLines : List JpError → Bytes → List Bytes
  | [], _ => []
  | e :: reasons, indent => errorLine strerror indent e :: errorLines reasons (indent ++ ascii "  ")

/-- The line of an error as a client prints it, but for what stands in front of all lines. -/
def reportedLine (indent : Bytes) (e : JpError) : Bytes :=
  faultLine indent ⟨e.code, e.source, strerror e.code, e.desc⟩ ++ ascii "\n"

def reportedLines : List JpError → Bytes → List Bytes
  | [], _ => []
  | e :: reasons, indent =>
    reportedLine strerror indent e :: reportedLines reasons (indent ++ ascii "  ")

variable {strerror} {ctx : ErrorContext} {errors : List JpError} {indent before : Bytes}
  {name : Option CString} {toSyslog : Bool} {reason : CString} {lines : List Bytes}

/-- All errors are in the text, if there is room for what stands in front of one below the
    last. -/
theorem chainLoop_eq (errors : List JpError) (indent ret : Bytes) :
    chainLoop strerror errors indent ret =
      if errors = [] ∨ indent.length + 2 * errors.length < CHAIN_INDENT then
        .ok (ret ++ (errorLines strerror errors indent).flatMap paddedLine)
      else .error .fault := by
  induction errors generalizing indent ret with
  | nil =>
    rw [if_pos (.inl rfl), errorLines, List.flatMap_nil, List.append_nil]
    rfl
  | cons e reasons ih =>
    rw [chainLoop, ih, length_deeper, errorLines, List.flatMap_cons, List.append_assoc]
    have hcond := room_cons e reasons indent.length CHAIN_INDENT
    by_cases hroom : indent.length + 2 < CHAIN_INDENT
    · rw [if_pos hroom]
      exact if_congr ((and_iff_right hroom).symm.trans hcond.symm) rfl rfl
    · rw [if_neg hroom, if_neg fun h => hroom (hcond.1 h).1]

theorem nul_notMem_printed (s : Option CString) : 0 ∉ printed s := by
  cases s with
  | none => exact (by decide : 0 ∉ ascii "(null)")
  | some s => exact s.nul_notMem

theorem nul_notMem_errorLine (hindent : 0 ∉ indent) (e : JpError) :
    0 ∉ errorLine strerror indent e := by
  have hdesc : 0 ∉ e.desc.elim [] CString.bytes := by
    cases e.desc with
    | none => exact List.not_mem_nil
    | some s => exact s.nul_notMem
  simp only [errorLine, List.mem_append, not_or]
  exact ⟨⟨⟨⟨⟨⟨hindent, nul_notMem_printed _⟩, by decide⟩, (strerror e.code).nul_notMem⟩, by decide⟩,
    hdesc⟩, by decide⟩

theorem nul_notMem_errorLines (hindent : 0 ∉ indent) :
    ∀ line ∈ errorLines strerror errors indent, 0 ∉ line := by
  induction errors generalizing indent with
  | nil => exact List.forall_mem_nil _
  | cons e reasons ih =>
    refine List.forall_mem_cons.2 ⟨nul_notMem_errorLine hindent e, ih ?_⟩
    rw [List.mem_append, not_or]
    exact ⟨hindent, by decide⟩

theorem cstr_append {s : Bytes} (hs : 0 ∉ s) (rest : Bytes) :
    cstr (s ++ rest) = s ++ cstr rest := by
  rw [cstr, List.takeWhile_append_of_pos]
  · rfl
  · intro b hb
    rw [decide_eq_true_eq]
    rintro rfl
    exact hs hb

/-- The text ends in the first line that does not fit. -/
theorem cstr_flatMap_paddedLine (hnul : ∀ line ∈ lines, 0 ∉ line) :
    (∀ line ∈ lines, line.length < LINE_BUF) ∧ cstr (lines.flatMap paddedLine) = lines.flatten ∨
      ¬(∀ line ∈ lines, line.length < LINE_BUF) ∧
        (cstr (lines.flatMap paddedLine)).length < lines.flatten.length := by
  induction lines with
  | nil => exact .inl ⟨List.forall_mem_nil _, rfl⟩
  | cons line lines ih =>
    obtain ⟨hline, hlines⟩ := List.forall_mem_cons.1 hnul
    rw [List.flatMap_cons, List.flatten_cons]
    by_cases hlt : line.length < LINE_BUF
    · have hfits : paddedLine line = line := by
        rw [paddedLine, (snprintf_eq_self_iff (by decide)).2 hlt, Nat.sub_self, List.replicate_zero,
          List.append_nil]
      rw [hfits, cstr_append hline]
      rcases ih hlines with ⟨hall, heq⟩ | ⟨hnot, hlost⟩
      · exact .inl ⟨List.forall_mem_cons.2 ⟨hlt, hall⟩, congrArg (line ++ ·) heq⟩
      · refine .inr ⟨fun h => hnot (List.forall_mem_cons.1 h).2, ?_⟩
        rw [List.length_append, List.length_append]
        exact Nat.add_lt_add_left hlost _
    · -- the zero behind what fits ends the text
      have hlen : (snprintf LINE_BUF line).length = LINE_BUF - 1 := by
        rw [snprintf, List.length_take]
        exact Nat.min_eq_left (by omega)
      obtain ⟨k, hk⟩ : ∃ k, line.length - (LINE_BUF - 1) = k + 1 :=
        Nat.exists_eq_succ_of_ne_zero (by rw [LINE_BUF] at hlt ⊢; omega)
      have hpadded : paddedLine line = snprintf LINE_BUF line ++ 0 :: List.replicate k 0 := by
        rw [paddedLine, hlen, hk, List.replicate_succ]
      have hnotmem : 0 ∉ snprintf LINE_BUF line := fun h => hline (List.mem_of_mem_take h)
      refine .inr ⟨fun h => hlt (List.forall_mem_cons.1 h).1, ?_⟩
      rw [hpadded, List.append_assoc, cstr_append hnotmem, List.cons_append, cstr,
        List.takeWhile_cons_of_neg (by simp), List.append_nil, hlen, List.length_append]
      rw [LINE_BUF] at hlt ⊢
      omega

/-- Only a description that is missing is told in two ways. -/
theorem errorLine_or (strerror : ℤ → CString) (indent : Bytes) (e : JpError) :
    e.desc ≠ none ∧ errorLine strerror indent e = reportedLine strerror indent e ∨
      e.desc = none ∧
        (errorLine strerror indent e).length < (reportedLine strerror indent e).length := by
  obtain ⟨code, desc, source⟩ := e
  cases desc with
  | none =>
    refine .inr ⟨rfl, ?_⟩
    simp only [errorLine, reportedLine, faultLine, List.length_append, Option.elim_none, printed]
    have hnull : (ascii "(null)").length = 6 := rfl
    have hends : (ascii ")\n").length = (ascii ")").length + (ascii "\n").length := rfl
    rw [hnull, hends, List.length_nil]
    omega
  | some desc =>
    refine .inl ⟨Option.some_ne_none _, ?_⟩
    have hends : ascii ")\n" = ascii ")" ++ ascii "\n" := rfl
    rw [errorLine, reportedLine, faultLine, hends, ← List.append_assoc]
    rfl

theorem errorLines_or (strerror : ℤ → CString) (errors : List JpError) (indent : Bytes) :
    (∀ e ∈ errors, e.desc ≠ none) ∧
        errorLines strerror errors indent = reportedLines strerror errors indent ∨
      ¬(∀ e ∈ errors, e.desc ≠ none) ∧ (errorLines strerror errors indent).flatten.length <
        (reportedLines strerror errors indent).flatten.length := by
  induction errors generalizing indent with
  | nil => exact .inl ⟨List.forall_mem_nil _, rfl⟩
  | cons e reasons ih =>
    simp only [errorLines, reportedLines, List.flatten_cons, List.length_append]
    rcases errorLine_or strerror indent e with ⟨hdesc, hline⟩ | ⟨hnone, hlt⟩
    · rcases ih (indent ++ ascii "  ") with ⟨hall, hlines⟩ | ⟨hnot, hlt⟩
      · exact .inl ⟨List.forall_mem_cons.2 ⟨hdesc, hall⟩, by rw [hline, hlines]⟩
      · refine .inr ⟨fun h => hnot (List.forall_mem_cons.1 h).2, ?_⟩
        rw [hline]
        exact Nat.add_lt_add_left hlt _
    · refine .inr ⟨fun h => (List.forall_mem_cons.1 h).1 hnone, Nat.add_lt_add_of_lt_of_le hlt ?_⟩
      rcases ih (indent ++ ascii "  ") with ⟨-, hlines⟩ | ⟨-, hlt⟩
      · rw [hlines]
      · exact hlt.le

/-- The lines a client prints of the errors of a server. -/
theorem faultLines_jp2sError (before : Bytes) (errors : List JpError) (indent : Bytes) :
    faultLines before (jp2sError strerror errors) (ascii "  " ++ indent) =
      (reportedLines strerror errors indent).map (before ++ ascii "  " ++ ·) := by
  induction errors generalizing indent with
  | nil => rfl
  | cons e reasons ih =>
    rw [reportedLines, List.map_cons, ← ih, ← List.append_assoc (ascii "  ")]
    have hline : faultLine (before ++ (ascii "  " ++ indent))
          ⟨e.code, e.source, strerror e.code, e.desc⟩ ++ ascii "\n" =
        before ++ ascii "  " ++ reportedLine strerror indent e := by
      simp only [reportedLine, faultLine, List.append_assoc]
    rw [← hline]
    rfl

/-- What a client prints of the fault of a server with an error. -/
theorem clientPrint_err2fault (hne : ctx.error ≠ []) :
    clientPrint name toSyslog reason .SOAP_FAULT (err2fault strerror ctx) =
      if ctx.error.length < 99 then
        .ok (-1, ⟨(linePrefix name ++ reason.bytes ++ ascii "\n") ::
            (reportedLines strerror ctx.error []).map (linePrefix name ++ ascii "  " ++ ·),
          (if toSyslog then [reason.bytes] else []) ++
            if toSyslog then (jp2sError strerror ctx.error).map (faultLine (linePrefix name))
            else []⟩)
      else .error .fault := by
  have hfaults : jp2sError strerror ctx.error ≠ [] := by simpa [jp2sError] using hne
  have hdetail : err2fault strerror ctx = some ⟨true, none, jp2sError strerror ctx.error⟩ := by
    unfold err2fault
    cases h : jp2sError strerror ctx.error with
    | nil => exact absurd h hfaults
    | cons f reasons => rfl
  have hlines := @faultLines_jp2sError strerror (linePrefix name) ctx.error []
  rw [List.append_nil] at hlines
  have hlength : (jp2sError strerror ctx.error).length = ctx.error.length := List.length_map _
  have hroom : (jp2sError strerror ctx.error = [] ∨ (ascii "  ").length +
      2 * (jp2sError strerror ctx.error).length < INDENT) ↔ ctx.error.length < 99 := by
    rw [or_iff_right hfaults, hlength]
    have hindent : (ascii "  ").length = 2 := rfl
    rw [hindent, INDENT]
    omega
  have hget : clientGetFault .SOAP_FAULT ((err2fault strerror ctx).map FaultDetail.soapDetail) =
      .ok (1, genericFault (jp2sError strerror ctx.error)) := by
    rw [hdetail]
    rfl
  unfold clientPrint
  rw [hget, hdetail]
  simp only [Exec.ok_bind, Option.elim_some, FaultDetail.split, if_true, printFaults_eq, hlines]
  by_cases h : ctx.error.length < 99
  · rw [if_pos (hroom.2 h), if_pos h]
    simp [hfaults]
  · rw [if_neg (mt hroom.1 h), if_neg h]
    rfl


/-- A client is told the code of the error that was stacked last. -/
theorem clientGetErrno_stackError (err : JpError) :
    clientGetErrno .SOAP_FAULT
      ((err2fault strerror (ctx.stackError err).2).map FaultDetail.soapDetail) =
        .ok (ctx.stackError err).1 := rfl

variable (strerror ctx) in
/-- The server prints lines of its errors, and a client the same ones, a bit further in, behind
    the reason of the fault. -/
def ReportsAgree (name : Option CString) (toSyslog : Bool) (reason : CString) : Prop :=
  ∃ (text : Bytes) (lines log : List Bytes), errorChain strerror ctx = .ok text ∧
    cstr text = lines.flatten ∧
    clientPrint name toSyslog reason .SOAP_FAULT (err2fault strerror ctx) =
      .ok (-1, ⟨(linePrefix name ++ reason.bytes ++ ascii "\n") ::
        lines.map (linePrefix name ++ ascii "  " ++ ·), log⟩)

/-- The server and a client say the same of the errors of a server exactly when there are some,
    but less than 99, each with a description, and when no line of the server is longer than its
    buffer. -/
theorem reportsAgree_iff : ReportsAgree strerror ctx name toSyslog reason ↔
    ctx.error ≠ [] ∧ ctx.error.length < 99 ∧ (∀ e ∈ ctx.error, e.desc ≠ none) ∧
      ∀ line ∈ errorLines strerror ctx.error [], line.length < LINE_BUF := by
  have hpadded := cstr_flatMap_paddedLine
    (@nul_notMem_errorLines strerror ctx.error [] List.not_mem_nil)
  have hchain (hne : ctx.error ≠ []) : errorChain strerror ctx =
      chainLoop strerror ctx.error [] [] := by
    obtain ⟨error⟩ := ctx
    cases error with
    | nil => exact absurd rfl hne
    | cons e reasons => rfl
  constructor
  · rintro ⟨text, lines, log, htext, hcstr, hprint⟩
    have hne : ctx.error ≠ [] := by
      intro h
      rw [errorChain, h] at htext
      cases htext
    rw [clientPrint_err2fault hne] at hprint
    rw [hchain hne, chainLoop_eq] at htext
    have hlt : ctx.error.length < 99 := by
      by_contra h
      rw [if_neg h] at hprint
      cases hprint
    rw [if_pos hlt] at hprint
    split_ifs at htext
    obtain rfl := Except.ok.inj htext
    have hlines : reportedLines strerror ctx.error [] = lines := by
      have houtput := congrArg (ClientOutput.out ∘ Prod.snd) (Except.ok.inj hprint)
      exact List.map_injective_iff.2 (List.append_right_injective _) (List.cons.inj houtput).2
    rw [List.nil_append, ← hlines] at hcstr
    -- nothing of the text may be missing
    rcases hpadded with ⟨hfits, hall⟩ | ⟨-, hlost⟩
    · rcases errorLines_or strerror ctx.error [] with ⟨hdesc, -⟩ | ⟨-, hless⟩
      · exact ⟨hne, hlt, hdesc, hfits⟩
      · exact absurd (congrArg List.length (hall.symm.trans hcstr)) hless.ne
    · have hle : (errorLines strerror ctx.error []).flatten.length ≤
          (reportedLines strerror ctx.error []).flatten.length := by
        rcases errorLines_or strerror ctx.error [] with ⟨-, heq⟩ | ⟨-, hless⟩
        · rw [heq]
        · exact hless.le
      exact absurd (congrArg List.length hcstr) (hlost.trans_le hle).ne
  · rintro ⟨hne, hlt, hdesc, hfits⟩
    have hroom : ctx.error = [] ∨ ([] : Bytes).length + 2 * ctx.error.length < CHAIN_INDENT := by
      refine .inr ?_
      rw [List.length_nil, CHAIN_INDENT]
      omega
    have htext := (hchain hne).trans ((chainLoop_eq ctx.error [] []).trans (if_pos hroom))
    have hprint := @clientPrint_err2fault strerror ctx name toSyslog reason hne
    rw [if_pos hlt] at hprint
    refine ⟨_, _, _, htext, ?_, hprint⟩
    have hlines := ((errorLines_or strerror ctx.error []).resolve_right fun h => h.1 hdesc).2
    rw [List.nil_append, (hpadded.resolve_right fun h => h.1 hfits).2, hlines]

end Agree

end JobProvenance
