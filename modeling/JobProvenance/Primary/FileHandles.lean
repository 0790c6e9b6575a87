import JobProvenance.Primary.Backend

/-!
# Files through their handles

A handle is a string of bytes in memory, which is read and written at offsets, and
stored when it is closed if it was written. A handle that is opened for reading is
not protected: `append` does not look at its mode, and `pwrite`, which does, returns
the code of an error that has none.

* `runOnString`: what the operations do to a string of bytes;
* `readWrite_refines_string`: what they do through a handle for reading and writing;
* `onlyRead_iff`: a handle for reading is one only as long as nobody writes to it;
  `bytes_runOnHandle`: what is appended is kept.
-/

namespace JobProvenance

/-! ## Operations -/

/-- An error as a function reports it: of zeroes at first. -/
structure ErrorReport where
  code : Ret
  desc : Option Bytes

def ErrorReport.zero : ErrorReport := ⟨none, none⟩

/-- Puts an error on the stack of errors; the return value is its code. -/
def stackError (err : ErrorReport) : Ret := err.code

/-- An operation on an open file. The buffer that is read into is smaller than half of
    the address space, and so are those that are written, as they are lists. -/
inductive FileOp
  | pread (nbytes : ℕ) (fits : nbytes < 2 ^ 63) (offset : Int64)
  | pwrite (buf : Bytes) (offset : Int64)
  | append (buf : Bytes)

/-- What an operation gives: the bytes that were read, or a return value. -/
inductive FileResult
  | bytes (bytes : Bytes)
  | ret (ret : Ret)
  deriving DecidableEq

/-- A place in the contents of a file: none is in front of them. -/
def placeAt (offset : Int64) : Exec ℕ :=
  if 0 ≤ offset.toInt then .ok offset.toInt.toNat else .error .fault

/-- Writes at an offset, with the return value. -/
def pwriteRet (h : Fhandle) (buf : Bytes) (offset : Int64) : Exec (Fhandle × Ret) :=
  if h.filemode % 4 = 0 then
    .ok (h, stackError { ErrorReport.zero with desc := some (ascii "Cannot write to readonly file") })
  else do
    let offset ← placeAt offset
    let h ← pwrite h buf offset
    return (h, none)

namespace FileOp

/-- An operation through a handle. -/
def exec (h : Fhandle) : FileOp → Exec (Fhandle × FileResult)
  | pread nbytes _ offset => do
    let offset ← placeAt offset
    let bytes ← JobProvenance.pread h nbytes offset
    return (h, .bytes bytes)
  | pwrite buf offset => do
    let (h, ret) ← pwriteRet h buf offset
    return (h, .ret ret)
  | append buf => do
    let h ← JobProvenance.append h buf
    return (h, .ret none)

/-- An operation on a string of bytes. -/
def onString (s : Bytes) : FileOp → Bytes × FileResult
  | pread nbytes _ offset => (s, .bytes ((s.drop offset.toInt.toNat).take nbytes))
  | pwrite buf offset =>
    (s.take offset.toInt.toNat ++ buf ++ s.drop (offset.toInt.toNat + buf.length), .ret none)
  | append buf => (s ++ buf, .ret none)

/-- The offset of an operation is within a string, or at its end. -/
def Within (s : Bytes) : FileOp → Prop
  | pread _ _ offset => 0 ≤ offset.toInt ∧ offset.toInt ≤ s.length
  | pwrite _ offset => 0 ≤ offset.toInt ∧ offset.toInt ≤ s.length
  | append _ => True

/-- Whether an operation reads. -/
def isRead : FileOp → Bool
  | pread .. => true
  | pwrite .. => false
  | append .. => false

end FileOp

/-- Operations through a handle, one after the other. -/
def runOnHandle (h : Fhandle) : List FileOp → Exec (Fhandle × List FileResult)
  | [] => .ok (h, [])
  | op :: ops => do
    let (h, result) ← op.exec h
    let (h, results) ← runOnHandle h ops
    return (h, result :: results)

/-- Operations on a string of bytes, one after the other. -/
def runOnString (s : Bytes) : List FileOp → Bytes × List FileResult
  | [] => (s, [])
  | op :: ops =>
    let (s, result) := op.onString s
    let (s, results) := runOnString s ops
    (s, result :: results)

/-- Operations each of which is within the string it is on, while the string stays
    shorter than 2^31 bytes. -/
def AllWithin (s : Bytes) : List FileOp → Prop
  | [] => True
  | op :: ops => op.Within s ∧ (op.onString s).1.length < 2 ^ 31 ∧ AllWithin (op.onString s).1 ops

/-! ## Handles for reading and writing -/

section ReadWrite

variable {config : Config} {jobs : List JobRow} {disk : Disk} {job cls fname content s : Bytes}
  {name : Option Bytes} {h : Fhandle} {ops : List FileOp}

theorem placeAt_eq {offset : Int64} (h : 0 ≤ offset.toInt) :
    placeAt offset = .ok offset.toInt.toNat := if_pos h

/-- A handle that may be written holds the contents of its file, or ones that are
    stored when it is closed. -/
structure Fhandle.Open (h : Fhandle) (fname content s : Bytes) : Prop where
  filename : h.filename = fname
  mode : h.filemode % 4 ≠ 0
  bytes : h.filedata.bytes = s
  stored : h.modified = true ∨ s = content

/-- An operation through a handle is the one on the string it holds. -/
theorem exec_eq (hh : h.Open fname content s) {op : FileOp} (hop : op.Within s)
    (hlen : (op.onString s).1.length < 2 ^ 31) :
    ∃ h', op.exec h = .ok (h', (op.onString s).2) ∧ h'.Open fname content (op.onString s).1 := by
  have hs := hh.bytes
  cases op with
  | pread nbytes fits offset =>
    obtain ⟨hneg, hle⟩ := hop
    have hle : offset.toInt.toNat ≤ h.filedata.bytes.length := by rw [hs]; omega
    refine ⟨h, ?_, hh⟩
    rw [FileOp.exec, placeAt_eq hneg, Exec.ok_bind, pread_eq hle fits, hs]
    rfl
  | pwrite buf offset =>
    obtain ⟨hneg, hle⟩ := hop
    have hle : offset.toInt.toNat ≤ h.filedata.bytes.length := by rw [hs]; omega
    have hdata : Filedata.ofBytes (s.take offset.toInt.toNat ++ buf ++
        s.drop (offset.toInt.toNat + buf.length)) = .ok ⟨_, hlen⟩ := Filedata.ofBytes_of_lt hlen
    refine ⟨{ h with filedata := ⟨_, hlen⟩, modified := true }, ?_,
      hh.filename, hh.mode, rfl, .inl rfl⟩
    rw [FileOp.exec, pwriteRet, if_neg hh.mode, placeAt_eq hneg, Exec.ok_bind, pwrite,
      if_neg hh.mode, if_pos hle, hs, hdata]
    rfl
  | append buf =>
    have hdata : Filedata.ofBytes (s ++ buf) = .ok ⟨_, hlen⟩ := Filedata.ofBytes_of_lt hlen
    refine ⟨{ h with filedata := ⟨_, hlen⟩, modified := true }, ?_,
      hh.filename, hh.mode, rfl, .inl rfl⟩
    rw [FileOp.exec, append, hs, hdata]
    rfl

/-- Operations through a handle are the ones on the string it holds. -/
theorem runOnHandle_eq (hh : h.Open fname content s) (hops : AllWithin s ops) :
    ∃ h', runOnHandle h ops = .ok (h', (runOnString s ops).2) ∧
      h'.Open fname content (runOnString s ops).1 := by
  induction ops generalizing h s with
  | nil => exact ⟨h, rfl, hh⟩
  | cons op ops ih =>
    obtain ⟨hop, hlen, hops⟩ := hops
    obtain ⟨h₁, hexec, hh₁⟩ := exec_eq hh hop hlen
    obtain ⟨h₂, hrun, hh₂⟩ := ih hh₁ hops
    refine ⟨h₂, ?_, hh₂⟩
    rw [runOnHandle, hexec, Exec.ok_bind]
    dsimp only
    rw [hrun]
    rfl

/-- The string stays shorter than 2^31 bytes. -/
theorem length_runOnString_lt (hs : s.length < 2 ^ 31) (hops : AllWithin s ops) :
    (runOnString s ops).1.length < 2 ^ 31 := by
  induction ops generalizing s with
  | nil => exact hs
  | cons op ops ih => exact ih hops.2.1 hops.2.2

/-- A file that is opened for reading and writing: the disk and the handle. -/
theorem openFile_readWrite (hf : getJobFname config jobs job cls name = .ok fname)
    (hd : disk fname = some content ∨ disk fname = none ∧ content = [])
    (hc : content.length < 2 ^ 31) :
    ∃ disk₁ h, openFile config jobs disk job cls name (O_RDWR ||| O_CREAT) = .ok (disk₁, h) ∧
      disk₁ fname = some content ∧ h.Open fname content content := by
  have hmode : (O_RDWR ||| O_CREAT) % 4 ≠ 0 := by decide
  rcases hd with hd | ⟨hd, rfl⟩
  · refine ⟨disk, ⟨fname, O_RDWR ||| O_CREAT, ⟨content, hc⟩, false⟩, ?_, hd, rfl, hmode, rfl, .inr rfl⟩
    exact (openFile_some hf hd (by decide)).2 ⟨_, rfl, rfl⟩
  · exact ⟨_, _, openFile_create hf hd, Function.update_self .., rfl, hmode, rfl, .inr rfl⟩

/-- What a handle holds is stored when it is closed. -/
theorem closeFile_eq (hh : h.Open fname content s) (hd : disk fname = some content) :
    closeFile disk h fname = some s := by
  rw [closeFile]
  split_ifs with hm
  · rw [← hh.filename, Function.update_self, hh.bytes]
  · rcases hh.stored with hm' | rfl
    · exact absurd hm' hm
    · exact hd

/-- **A file handle is a string of bytes**: every operation gives what it gives on the
    string, and all of the string is read after the file is closed and opened again. -/
theorem readWrite_refines_string (hf : getJobFname config jobs job cls name = .ok fname)
    (hd : disk fname = some content ∨ disk fname = none ∧ content = [])
    (hc : content.length < 2 ^ 31) (hops : AllWithin content ops) :
    ∃ disk₁ h₁ h₂,
      openFile config jobs disk job cls name (O_RDWR ||| O_CREAT) = .ok (disk₁, h₁) ∧
      runOnHandle h₁ ops = .ok (h₂, (runOnString content ops).2) ∧
      ∀ mode, mode % 4 ≠ 3 → ∃ h₃,
        openFile config jobs (closeFile disk₁ h₂) job cls name mode = .ok (closeFile disk₁ h₂, h₃) ∧
        ∀ nbytes, (runOnString content ops).1.length ≤ nbytes → nbytes < 2 ^ 63 →
          pread h₃ nbytes 0 = .ok (runOnString content ops).1 := by
  obtain ⟨disk₁, h₁, hopen, hd₁, hh₁⟩ := openFile_readWrite hf hd hc
  obtain ⟨h₂, hrun, hh₂⟩ := runOnHandle_eq hh₁ hops
  refine ⟨disk₁, h₁, h₂, hopen, hrun, fun mode hmode => ?_⟩
  have hlen := length_runOnString_lt hc hops
  refine ⟨⟨fname, mode, ⟨_, hlen⟩, false⟩,
    (openFile_some hf (closeFile_eq hh₂ hd₁) hmode).2 ⟨_, rfl, rfl⟩, fun nbytes hle hlt => ?_⟩
  rw [pread_eq (Nat.zero_le _) hlt, List.drop_zero, List.take_of_length_le hle]

theorem getJobFname_tags :
    getJobFname sampleConfig [sampleJob] sampleJob.dgJobid (ascii "tags") none =
      .ok (ascii "/jp/data/0123/0/abcdefghij/tags") := rfl

/-- A disk without files. -/
def noFiles : Disk := fun _ => none

theorem readWrite_refines_string_sample : ∃ disk₁ h₁ h₂,
    openFile sampleConfig [sampleJob] noFiles sampleJob.dgJobid (ascii "tags") none
      (O_RDWR ||| O_CREAT) = .ok (disk₁, h₁) ∧
    runOnHandle h₁ [.append (ascii "ab"), .pwrite (ascii "cd") 1, .pread 8 (by decide) 0] =
      .ok (h₂, [.ret none, .ret none, .bytes (ascii "acd")]) := by
  obtain ⟨disk₁, h₁, h₂, hopen, hrun, -⟩ := @readWrite_refines_string _ _ noFiles _ _ _ [] _
    [.append (ascii "ab"), .pwrite (ascii "cd") 1, .pread 8 (by decide) 0] getJobFname_tags
    (.inr ⟨rfl, rfl⟩) (by decide)
    ⟨trivial, by decide, ⟨by decide, by decide⟩, by decide, ⟨by decide, by decide⟩,
      by decide, trivial⟩
  exact ⟨disk₁, h₁, h₂, hopen, hrun⟩

end ReadWrite

/-! ## Handles for reading -/

/-- An operation that writes is refused with an error. -/
def Refused (op : FileOp) (result : FileResult) : Prop :=
  op.isRead = false → ∃ code, result = .ret (some code)

/-- The results of the operations that read. -/
def readResults (ops : List FileOp) (results : List FileResult) : List FileResult :=
  ((ops.zip results).filter (·.1.isRead)).map Prod.snd

/-- A file that is opened for reading is only read: all operations return, those that
    write with an error, the others with what they give without these, and the file is
    left as it was. -/
def OnlyRead (config : Config) (jobs : List JobRow) (disk : Disk) (job cls : Bytes)
    (name : Option Bytes) (ops : List FileOp) : Prop :=
  ∃ h₁ h₂ results, openFile config jobs disk job cls name O_RDONLY = .ok (disk, h₁) ∧
    runOnHandle h₁ ops = .ok (h₂, results) ∧
    List.Forall₂ Refused ops results ∧
    (∃ h₃, runOnHandle h₁ (ops.filter FileOp.isRead) = .ok (h₃, readResults ops results)) ∧
    closeFile disk h₂ = disk

section ReadOnly

variable {config : Config} {jobs : List JobRow} {disk : Disk} {job cls fname content : Bytes}
  {name : Option Bytes} {h h' : Fhandle} {ops : List FileOp} {results : List FileResult}

/-- Reading changes nothing, and gives something within the contents only. -/
theorem exec_read {op : FileOp} (hop : op.isRead) :
    (∃ result, op.exec h = .ok (h, result)) ↔ op.Within h.filedata.bytes := by
  cases op with
  | pwrite => cases hop
  | append => cases hop
  | pread nbytes fits offset =>
    constructor
    · rintro ⟨result, hexec⟩
      obtain ⟨place, hplace, hexec⟩ := Exec.bind_eq_ok.1 hexec
      obtain ⟨bytes, hread, -⟩ := Exec.bind_eq_ok.1 hexec
      unfold placeAt at hplace
      split_ifs at hplace with hneg
      obtain rfl := Except.ok.inj hplace
      have hle := (length_pread hread).1
      exact ⟨hneg, by omega⟩
    · rintro ⟨hneg, hle⟩
      have hle : offset.toInt.toNat ≤ h.filedata.bytes.length := by omega
      rw [FileOp.exec, placeAt_eq hneg, Exec.ok_bind, pread_eq hle fits]
      exact ⟨_, rfl⟩

theorem exec_read_eq_ok {op : FileOp} {result : FileResult} (hop : op.isRead)
    (hexec : op.exec h = .ok (h', result)) : h' = h := by
  cases op with
  | pwrite => cases hop
  | append => cases hop
  | pread nbytes fits offset =>
    obtain ⟨_, -, hexec⟩ := Exec.bind_eq_ok.1 hexec
    obtain ⟨_, -, hexec⟩ := Exec.bind_eq_ok.1 hexec
    exact (Prod.mk.inj (Except.ok.inj hexec)).1.symm

/-- No operation that writes is refused. -/
theorem not_refused {op : FileOp} {result : FileResult} (hop : op.isRead = false)
    (hexec : op.exec h = .ok (h', result)) : ¬Refused op result := by
  intro hrefused
  obtain ⟨code, rfl⟩ := hrefused hop
  cases op with
  | pread => cases hop
  | pwrite buf offset =>
    obtain ⟨⟨h₁, ret⟩, hwrite, hexec⟩ := Exec.bind_eq_ok.1 hexec
    obtain ⟨-, hret⟩ := Prod.mk.inj (Except.ok.inj hexec)
    obtain rfl := FileResult.ret.inj hret
    unfold pwriteRet at hwrite
    split_ifs at hwrite
    · cases Except.ok.inj hwrite
    · obtain ⟨_, -, hwrite⟩ := Exec.bind_eq_ok.1 hwrite
      obtain ⟨_, -, hwrite⟩ := Exec.bind_eq_ok.1 hwrite
      cases Except.ok.inj hwrite
  | append buf =>
    obtain ⟨_, -, hexec⟩ := Exec.bind_eq_ok.1 hexec
    cases Except.ok.inj hexec

/-- Operations of which those that write are refused are none that write, and are within
    the contents. -/
theorem isRead_of_refused (hrun : runOnHandle h ops = .ok (h', results))
    (hrefused : List.Forall₂ Refused ops results) :
    ∀ op ∈ ops, op.isRead = true ∧ op.Within h.filedata.bytes := by
  induction ops generalizing h results with
  | nil => nofun
  | cons op ops ih =>
    obtain ⟨⟨h₁, result⟩, hexec, hrun⟩ := Exec.bind_eq_ok.1 hrun
    obtain ⟨⟨h₂, results'⟩, hrun', hrun⟩ := Exec.bind_eq_ok.1 hrun
    obtain ⟨rfl, rfl⟩ := Prod.mk.inj (Except.ok.inj hrun)
    obtain ⟨hhead, hrefused⟩ := List.forall₂_cons.1 hrefused
    have hop : op.isRead = true := by
      by_contra hop
      exact not_refused (Bool.not_eq_true _ ▸ hop) hexec hhead
    obtain rfl := exec_read_eq_ok hop hexec
    exact List.forall_mem_cons.2 ⟨⟨hop, (exec_read hop).1 ⟨_, hexec⟩⟩, ih hrun' hrefused⟩

/-- Operations that read return within the contents, and change nothing. -/
theorem runOnHandle_reads (hops : ∀ op ∈ ops, op.isRead = true ∧ op.Within h.filedata.bytes) :
    ∃ results, runOnHandle h ops = .ok (h, results) ∧ List.Forall₂ Refused ops results := by
  induction ops with
  | nil => exact ⟨[], rfl, .nil⟩
  | cons op ops ih =>
    obtain ⟨⟨hop, hwithin⟩, hops⟩ := List.forall_mem_cons.1 hops
    obtain ⟨result, hexec⟩ := (exec_read hop).2 hwithin
    obtain ⟨results, hrun, hrefused⟩ := ih hops
    refine ⟨result :: results, ?_, .cons (fun h => ?_) hrefused⟩
    · rw [runOnHandle, hexec, Exec.ok_bind]
      dsimp only
      rw [hrun]
      rfl
    · rw [hop] at h
      cases h

theorem readResults_reads (hops : ∀ op ∈ ops, op.isRead = true)
    (hlen : ops.length = results.length) : readResults ops results = results := by
  rw [readResults, List.filter_eq_self.2 fun p hp => hops _ (List.of_mem_zip hp).1,
    List.map_snd_zip hlen.ge]

/-- A file that is opened for reading: the handle. -/
theorem openFile_readOnly (hf : getJobFname config jobs job cls name = .ok fname)
    (hd : disk fname = some content) (hc : content.length < 2 ^ 31) {r : Disk × Fhandle} :
    openFile config jobs disk job cls name O_RDONLY = .ok r ↔
      (disk, Fhandle.mk fname O_RDONLY ⟨content, hc⟩ false) = r := by
  rw [openFile_some hf hd (by decide)]
  constructor
  · rintro ⟨filedata, rfl, heq⟩
    exact heq
  · exact fun h => ⟨_, rfl, h⟩

/-- **A file that is opened for reading is only read** exactly when nobody writes to it,
    and nobody reads in front of it or behind its end. -/
theorem onlyRead_iff (hf : getJobFname config jobs job cls name = .ok fname)
    (hd : disk fname = some content) (hc : content.length < 2 ^ 31) :
    OnlyRead config jobs disk job cls name ops ↔
      ∀ op ∈ ops, op.isRead = true ∧ op.Within content := by
  constructor
  · rintro ⟨h₁, h₂, results, hopen, hrun, hrefused, -⟩
    obtain ⟨-, rfl⟩ := Prod.mk.inj ((openFile_readOnly hf hd hc).1 hopen)
    exact isRead_of_refused hrun hrefused
  · intro hops
    obtain ⟨results, hrun, hrefused⟩ :=
      @runOnHandle_reads (Fhandle.mk fname O_RDONLY ⟨content, hc⟩ false) ops hops
    refine ⟨_, _, results, (openFile_readOnly hf hd hc).2 rfl, hrun, hrefused, ?_, rfl⟩
    rw [List.filter_eq_self.2 fun op hop => (hops op hop).1,
      readResults_reads (fun op hop => (hops op hop).1) hrefused.length_eq]
    exact ⟨_, hrun⟩

/-- The bytes an operation writes behind the end. -/
def FileOp.appended : FileOp → Bytes
  | pread .. => []
  | pwrite .. => []
  | append buf => buf

/-- What is appended through a handle for reading is kept, what is written is not. -/
theorem bytes_runOnHandle (hm : h.filemode % 4 = 0) (hrun : runOnHandle h ops = .ok (h', results)) :
    h'.filedata.bytes = h.filedata.bytes ++ ops.flatMap FileOp.appended := by
  induction ops generalizing h results with
  | nil =>
    obtain ⟨rfl, -⟩ := Prod.mk.inj (Except.ok.inj hrun)
    simp
  | cons op ops ih =>
    obtain ⟨⟨h₁, result⟩, hexec, hrun⟩ := Exec.bind_eq_ok.1 hrun
    obtain ⟨⟨h₂, results'⟩, hrun', hrun⟩ := Exec.bind_eq_ok.1 hrun
    obtain ⟨rfl, -⟩ := Prod.mk.inj (Except.ok.inj hrun)
    have hstep : h₁.filemode = h.filemode ∧ h₁.filedata.bytes = h.filedata.bytes ++ op.appended := by
      cases op with
      | pread =>
        obtain rfl := exec_read_eq_ok rfl hexec
        exact ⟨rfl, (List.append_nil _).symm⟩
      | pwrite buf offset =>
        rw [FileOp.exec, pwriteRet, if_pos hm] at hexec
        obtain ⟨rfl, -⟩ := Prod.mk.inj (Except.ok.inj hexec)
        exact ⟨rfl, (List.append_nil _).symm⟩
      | append buf =>
        obtain ⟨h₃, happend, hexec⟩ := Exec.bind_eq_ok.1 hexec
        obtain ⟨rfl, -⟩ := Prod.mk.inj (Except.ok.inj hexec)
        obtain ⟨-, hmode, hbytes, -⟩ := append_eq_ok.1 happend
        exact ⟨hmode, hbytes⟩
    rw [ih (hstep.1 ▸ hm) hrun', hstep.2, List.append_assoc, List.flatMap_cons]

/-- A disk with a file of tags of the sample job. -/
def tagsOnDisk : Disk :=
  Function.update noFiles (ascii "/jp/data/0123/0/abcdefghij/tags") (some (ascii "tags"))

theorem onlyRead_iff_sample :
    OnlyRead sampleConfig [sampleJob] tagsOnDisk sampleJob.dgJobid (ascii "tags") none
      [.pread 8 (by decide) 2] :=
  (onlyRead_iff getJobFname_tags (Function.update_self ..) (by decide)).2
    (List.forall_mem_singleton.2 ⟨rfl, by decide, by decide⟩)

/-- Something is appended through a handle for reading, with the return value of success. -/
theorem not_onlyRead_append :
    ¬OnlyRead sampleConfig [sampleJob] tagsOnDisk sampleJob.dgJobid (ascii "tags") none
      [.append (ascii "x")] := by
  rintro ⟨h₁, h₂, results, -, hrun, hrefused, -⟩
  exact absurd (isRead_of_refused hrun hrefused _ List.mem_cons_self).1 (by decide)

end ReadOnly

end JobProvenance
