import JobProvenance.Common.Attr
import Mathlib.Logic.Function.Basic

/-!
# The storage backend

What the primary storage keeps of a job: a row of the table `jobs`, and files
below the internal path, which are read and written through handles. A handle
holds the whole contents of its file in memory: opening loads it, closing
rewrites the file when the contents were modified.

* `getJobFname`: the internal path of a file of a registered job;
* `Fhandle`: an open file; the size of its contents is an `int`, so the
  contents are a `Filedata`, shorter than 2^31 bytes;
* `openFile_ok`: what opening the file of a registered job returns;
* `pread_eq`, `pwrite_eq`, `append_eq`: the operations on the contents as
  operations on a string of bytes.

The compressed files are as good as the library that reads and writes them: a
file is the bytes that reading it gives, and opening one takes no notice of a `+`
in the mode (`openFileWith_eq`: any library that does so opens files as `openFile`).
-/

namespace JobProvenance

/-! ## Jobs and paths -/

/-- A row of the table `jobs`; its key is the unique part of the job identifier. -/
structure JobRow where
  jobid : Bytes
  dgJobid : Bytes
  owner : Bytes
  regTime : ℤ
  deriving DecidableEq

/-- The configuration of the backend. -/
structure Config where
  internalPath : Bytes
  externalPath : Bytes

/-- The unique part of a job identifier; with `getPath` also its first ten
    characters are cut out of a copy, which is written behind its end when it is
    shorter. -/
def jobidUniquePathname (job : Bytes) (getPath : Bool) : Exec Bytes :=
  match afterLast (ch '/') job with
  | none => .error (.errno .EINVAL)
  | some unique => if getPath ∧ unique.length < 10 then .error .fault else .ok unique

/-- It is what stands behind the last slash. -/
theorem afterLast_of_jobidUniquePathname {job ju : Bytes} {getPath : Bool}
    (h : jobidUniquePathname job getPath = .ok ju) : afterLast (ch '/') job = some ju := by
  unfold jobidUniquePathname at h
  split at h
  · cases h
  · rename_i unique hu
    split_ifs at h
    exact Except.ok.inj h ▸ hu

/-- The week of a registration time. -/
def regtimeTrunc (tvSec : ℤ) : ℤ := tvSec.tdiv (86400 * 7)

/-- The name of a file of a job: its class, and its name when it has one. -/
def dataBasename (cls : Bytes) (name : Option Bytes) : Bytes :=
  cls ++ name.elim [] (ch '.' :: ·)

/-- The directory of a job below the path `root`. -/
def dataDir (root owner : Bytes) (regTime : ℤ) (ju : Bytes) : Bytes :=
  root ++ ascii "/data/" ++ owner ++ ch '/' :: printDec (int32 (regtimeTrunc regTime)) ++
    ch '/' :: ju

/-- The path of a file of a job below the path `root`. -/
def dataPath (root owner : Bytes) (regTime : ℤ) (ju basename : Bytes) : Bytes :=
  dataDir root owner regTime ju ++ ch '/' :: basename

/-- The internal path of a file of a registered job. -/
def getJobFname (config : Config) (jobs : List JobRow) (job cls : Bytes) (name : Option Bytes) :
    Exec Bytes := do
  let ju ← jobidUniquePathname job true
  match jobs.find? (·.jobid = ju) with
  | none => throw (.errno .ENOENT)
  | some row => return dataPath config.internalPath row.owner row.regTime ju (dataBasename cls name)

/-! ## Open files -/

/-- The files of the storage by their paths. -/
abbrev Disk := Bytes → Option Bytes

/-- The contents of an open file: their size is an `int`. -/
@[ext]
structure Filedata where
  bytes : Bytes
  length_lt : bytes.length < 2 ^ 31
  deriving DecidableEq

namespace Filedata

/-- No contents. -/
def empty : Filedata := ⟨[], by decide⟩

/-- Contents whose size is put into an `int`. -/
def ofBytes (data : Bytes) : Exec Filedata :=
  if h : data.length < 2 ^ 31 then .ok ⟨data, h⟩ else .error .fault

@[simp]
theorem ofBytes_eq_ok {data : Bytes} {d : Filedata} : ofBytes data = .ok d ↔ d.bytes = data := by
  unfold ofBytes
  split_ifs with h
  · rw [Except.ok.injEq, Filedata.ext_iff, eq_comm]
  · exact iff_of_false (by simp) fun hd => h (hd ▸ d.length_lt)

theorem ofBytes_of_lt {data : Bytes} (h : data.length < 2 ^ 31) :
    ofBytes data = .ok ⟨data, h⟩ := dif_pos h

theorem ofBytes_of_not_lt {data : Bytes} (h : ¬data.length < 2 ^ 31) :
    ofBytes data = .error .fault := dif_neg h

end Filedata

/-- A file handle. -/
structure Fhandle where
  filename : Bytes
  filemode : ℕ
  filedata : Filedata
  modified : Bool

def O_RDONLY : ℕ := 0
def O_WRONLY : ℕ := 1
def O_RDWR : ℕ := 2
def O_CREAT : ℕ := 64

/-- The number of bytes a file is loaded by at once. -/
def READ_STEP : ℕ := 8192

/-- Loads what is left of a file behind what was loaded of it already, up to the
    first step that reads less than `READ_STEP` bytes. -/
def load (filedata : Filedata) (rest : Bytes) : Exec Filedata := do
  let buf := rest.take READ_STEP
  let filedata ← Filedata.ofBytes (filedata.bytes ++ buf)
  if buf.length = READ_STEP then load filedata (rest.drop READ_STEP) else return filedata
termination_by rest.length
decreasing_by
  rename_i h
  rw [List.length_take] at h
  rw [List.length_drop]
  have : READ_STEP = 8192 := rfl
  omega

/-- Opens a file of a job: the disk, where the file may have been created, and
    the handle. -/
def openFile (config : Config) (jobs : List JobRow) (disk : Disk) (job cls : Bytes)
    (name : Option Bytes) (mode : ℕ) : Exec (Disk × Fhandle) := do
  let fname ← getJobFname config jobs job cls name
  match disk fname with
  | some contents =>
    -- the two low bits are none of the three access modes
    if mode % 4 = 3 then throw (.errno .Z_STREAM_ERROR)
    let filedata ← load .empty contents
    return (disk, { filename := fname, filemode := mode, filedata, modified := false })
  | none =>
    if mode % 4 = O_RDWR ∧ mode &&& O_CREAT ≠ 0 then
      return (Function.update disk fname (some []),
        { filename := fname, filemode := mode, filedata := .empty, modified := false })
    else throw (.errno .Z_STREAM_ERROR)

/-- Reads up to `nbytes` bytes at an offset; from an offset behind the end the
    number of bytes to copy is negative. -/
def pread (h : Fhandle) (nbytes offset : ℕ) : Exec Bytes :=
  let data := h.filedata.bytes
  if data.length < (offset + nbytes) % 2 ^ 64 then
    if offset ≤ data.length then .ok (data.drop offset) else .error .fault
  else if offset + nbytes ≤ data.length then .ok ((data.drop offset).take nbytes)
  else .error .fault

/-- Writes at an offset; a handle opened for reading is left as it is, with the
    return value of success. What stands between the end and an offset behind it
    is not determined. -/
def pwrite (h : Fhandle) (buf : Bytes) (offset : ℕ) : Exec Fhandle :=
  if h.filemode % 4 = 0 then .ok h
  else if offset ≤ h.filedata.bytes.length then do
    let filedata ← Filedata.ofBytes
      (h.filedata.bytes.take offset ++ buf ++ h.filedata.bytes.drop (offset + buf.length))
    return { h with filedata, modified := true }
  else .error .fault

/-- Writes behind the end. -/
def append (h : Fhandle) (buf : Bytes) : Exec Fhandle := do
  let filedata ← Filedata.ofBytes (h.filedata.bytes ++ buf)
  return { h with filedata, modified := true }

/-- Closes a file: the disk, where the file is rewritten if it was modified. What the
    library may report while it closes and writes is left out. -/
def closeFile (disk : Disk) (h : Fhandle) : Disk :=
  if h.modified then Function.update disk h.filename (some h.filedata.bytes) else disk

/-! ## The operations on the contents -/

section Contents

variable {config : Config} {jobs : List JobRow} {disk : Disk} {h h' : Fhandle}

/-- Loading in steps loads all that is left. -/
theorem load_eq (filedata : Filedata) (rest : Bytes) :
    load filedata rest = Filedata.ofBytes (filedata.bytes ++ rest) := by
  induction filedata, rest using load.induct with
  | case1 filedata rest buf ih =>
    rw [load]
    by_cases hlen : (filedata.bytes ++ buf).length < 2 ^ 31
    · rw [Filedata.ofBytes_of_lt hlen, Exec.ok_bind]
      split_ifs with hstep
      · rw [ih _ hstep, List.append_assoc, List.take_append_drop]
      · have hbuf : buf = rest := List.take_of_length_le (by rw [List.length_take] at hstep; omega)
        rw [← hbuf]
        exact (Filedata.ofBytes_of_lt hlen).symm
    · have hlen' : ¬(filedata.bytes ++ rest).length < 2 ^ 31 := fun hlt => by
        simp only [buf, List.length_append, List.length_take] at hlen hlt
        omega
      rw [Filedata.ofBytes_of_not_lt hlen, Filedata.ofBytes_of_not_lt hlen', Exec.error_bind]

/-- Reading within the file. -/
theorem pread_eq {nbytes offset : ℕ} (ho : offset ≤ h.filedata.bytes.length)
    (hn : nbytes < 2 ^ 63) :
    pread h nbytes offset = .ok ((h.filedata.bytes.drop offset).take nbytes) := by
  have hlt := h.filedata.length_lt
  have hmod : (offset + nbytes) % 2 ^ 64 = offset + nbytes := Nat.mod_eq_of_lt (by omega)
  simp only [pread, hmod]
  split_ifs with hlen
  · rw [List.take_of_length_le]
    rw [List.length_drop]
    omega
  · rfl
  · omega

/-- What is read stands in the file. -/
theorem length_pread {nbytes offset : ℕ} {r : Bytes} (hr : pread h nbytes offset = .ok r) :
    offset ≤ h.filedata.bytes.length ∧ offset + r.length ≤ h.filedata.bytes.length ∧
      r.length ≤ nbytes := by
  simp only [pread] at hr
  have hmod := Nat.mod_le (offset + nbytes) (2 ^ 64)
  split_ifs at hr with h₁ h₂ h₃
  all_goals
    obtain rfl := Except.ok.inj hr
    simp only [List.length_drop, List.length_take]
    omega

@[simp]
theorem append_eq_ok {buf : Bytes} : append h buf = .ok h' ↔
    h'.filename = h.filename ∧ h'.filemode = h.filemode ∧ h'.filedata.bytes = h.filedata.bytes ++ buf ∧
      h'.modified = true := by
  simp only [append, Exec.bind_eq_ok, Filedata.ofBytes_eq_ok]
  constructor
  · rintro ⟨d, hd, hr⟩
    obtain rfl := Except.ok.inj hr
    exact ⟨rfl, rfl, hd, rfl⟩
  · rintro ⟨h₁, h₂, h₃, h₄⟩
    refine ⟨h'.filedata, h₃, congrArg Except.ok ?_⟩
    cases h'
    simp_all

/-- Writing at the start of an empty file. -/
theorem pwrite_empty {buf : Bytes} (hm : h.filemode % 4 ≠ 0) (hd : h.filedata.bytes = []) :
    pwrite h buf 0 = append h buf := by
  rw [pwrite, if_neg hm, if_pos (Nat.zero_le _), append, hd]
  simp

/-- Opening an existing file of a registered job loads it. -/
theorem openFile_some {job cls fname contents : Bytes} {name : Option Bytes} {mode : ℕ}
    (hf : getJobFname config jobs job cls name = .ok fname) (hd : disk fname = some contents)
    (hm : mode % 4 ≠ 3) {r : Disk × Fhandle} :
    openFile config jobs disk job cls name mode = .ok r ↔ ∃ filedata : Filedata,
      filedata.bytes = contents ∧ (disk, Fhandle.mk fname mode filedata false) = r := by
  rw [openFile, hf, Exec.ok_bind]
  simp only [hd, if_neg hm, Exec.bind_eq_ok, load_eq]
  refine exists_congr fun d => and_congr Filedata.ofBytes_eq_ok ?_
  exact ⟨fun h => Except.ok.inj h, fun h => congrArg Except.ok h⟩

/-- Opening a missing file with `O_CREAT` creates it. -/
theorem openFile_create {job cls fname : Bytes} {name : Option Bytes}
    (hf : getJobFname config jobs job cls name = .ok fname) (hd : disk fname = none) :
    openFile config jobs disk job cls name (O_RDWR ||| O_CREAT) =
      .ok (Function.update disk fname (some []),
        Fhandle.mk fname (O_RDWR ||| O_CREAT) .empty false) := by
  rw [openFile, hf, Exec.ok_bind]
  simp only [hd]
  rfl

/-- Opening a missing file for reading fails. -/
theorem openFile_none {job cls fname : Bytes} {name : Option Bytes}
    (hf : getJobFname config jobs job cls name = .ok fname) (hd : disk fname = none) :
    openFile config jobs disk job cls name O_RDONLY = .error (.errno .Z_STREAM_ERROR) := by
  rw [openFile, hf, Exec.ok_bind]
  simp only [hd]
  rfl

end Contents

/-! ## The library of compressed files -/

section Library

/-- The modes files are opened in. -/
inductive GzMode
  | r
  | rPlus
  | wPlus
  deriving DecidableEq

/-- What is used of the library to open files. -/
structure Gzip where
  /-- Opens a file, when there is one: what is in it then, `none` when it is not
      opened. -/
  gzopen : GzMode → Option Bytes → Option Bytes
  /-- The code for a stream that is not there, when it has one. -/
  gzerror : Option Errno

/-- A library that ignores a `+`: what is there is opened for reading, and what is not is
    created for writing; there is a code for a stream that is not there. -/
structure Gzip.IgnoresPlus (gz : Gzip) : Prop where
  r_eq : ∀ file, gz.gzopen .r file = file
  rPlus_eq : ∀ file, gz.gzopen .rPlus file = file
  wPlus_eq : gz.gzopen .wPlus none = some []
  gzerror_eq : gz.gzerror = some .Z_STREAM_ERROR

/-- What the attempts to open a file give: its contents, and whether it was created. -/
def Gzip.attempt (gz : Gzip) (mode : ℕ) (file : Option Bytes) : Option (Bytes × Bool) :=
  if mode % 4 = O_RDONLY then (gz.gzopen .r file).map (·, false)
  else if mode % 4 = O_WRONLY then (gz.gzopen .rPlus file).map (·, false)
  else if mode % 4 = O_RDWR then
    match gz.gzopen .rPlus file with
    | some contents => some (contents, false)
    | none => if mode &&& O_CREAT ≠ 0 then (gz.gzopen .wPlus file).map (·, true) else none
  else none

/-- Opens a file of a job with a library. When the library has no code for a stream that
    is not there, the caller goes on with a handle it did not get. -/
def openFileWith (gz : Gzip) (config : Config) (jobs : List JobRow) (disk : Disk)
    (job cls : Bytes) (name : Option Bytes) (mode : ℕ) : Exec (Disk × Fhandle) := do
  let fname ← getJobFname config jobs job cls name
  match gz.attempt mode (disk fname) with
  | none => throw (gz.gzerror.elim .fault .errno)
  | some (contents, created) =>
    -- what was created is not read
    let filedata ← if created then pure .empty else load .empty contents
    return (Function.update disk fname (some contents),
      { filename := fname, filemode := mode, filedata, modified := false })

variable {gz : Gzip} {config : Config} {jobs : List JobRow} {disk : Disk} {job cls : Bytes}
  {name : Option Bytes} {mode : ℕ}

/-- What is there is opened as it is, in one of the access modes. -/
theorem Gzip.IgnoresPlus.attempt_some (h : gz.IgnoresPlus) (contents : Bytes) :
    gz.attempt mode (some contents) = if mode % 4 = 3 then none else some (contents, false) := by
  have hlt : mode % 4 < 4 := Nat.mod_lt _ (by decide)
  rw [attempt, h.r_eq, h.rPlus_eq, O_RDONLY, O_WRONLY, O_RDWR]
  split_ifs <;> first | rfl | omega

/-- What is not there is created, in one of the modes. -/
theorem Gzip.IgnoresPlus.attempt_none (h : gz.IgnoresPlus) : gz.attempt mode none =
    if mode % 4 = O_RDWR ∧ mode &&& O_CREAT ≠ 0 then some ([], true) else none := by
  rw [attempt, h.r_eq, h.rPlus_eq, h.wPlus_eq, O_RDONLY, O_WRONLY]
  by_cases hm : mode % 4 = O_RDWR
  · have hne : mode % 4 ≠ 0 ∧ mode % 4 ≠ 1 := by
      rw [hm]
      decide
    rw [if_neg hne.1, if_neg hne.2, if_pos hm]
    by_cases hcreat : mode &&& O_CREAT ≠ 0
    · rw [if_pos hcreat, if_pos ⟨hm, hcreat⟩]
      rfl
    · rw [if_neg hcreat, if_neg fun hc => hcreat hc.2]
  · rw [if_neg hm, if_neg fun hc : mode % 4 = O_RDWR ∧ _ => hm hc.1]
    split_ifs <;> rfl

/-- With a library that ignores a `+` files are opened as `openFile` does. -/
theorem openFileWith_eq (h : gz.IgnoresPlus) : openFileWith gz config jobs disk job cls name mode =
    openFile config jobs disk job cls name mode := by
  rw [openFileWith, openFile]
  refine congrArg _ (funext fun fname => ?_)
  cases hd : disk fname with
  | some contents =>
    have hdisk : Function.update disk fname (some contents) = disk := by
      rw [← hd, Function.update_eq_self]
    rw [h.attempt_some, h.gzerror_eq]
    by_cases hm : mode % 4 = 3
    · rw [if_pos hm]
      simp only [if_pos hm]
      rfl
    · rw [if_neg hm]
      simp only [hdisk, if_neg hm]
      rfl
  | none =>
    rw [h.attempt_none, h.gzerror_eq]
    split_ifs <;> rfl

/-- With a library that refuses a `+` nothing is opened for reading and writing, so no
    tags are stored. -/
theorem openFileWith_of_refuses (hr : ∀ file, gz.gzopen .rPlus file = none)
    (hw : ∀ file, gz.gzopen .wPlus file = none) (hm : mode % 4 = O_RDWR) {r : Disk × Fhandle} :
    openFileWith gz config jobs disk job cls name mode ≠ .ok r := by
  have hattempt : ∀ file, gz.attempt mode file = none := fun file => by
    rw [Gzip.attempt, hm, if_neg (by decide), if_neg (by decide), if_pos rfl, hr, hw]
    exact ite_self _
  intro h
  obtain ⟨fname, -, h⟩ := Exec.bind_eq_ok.1 h
  rw [hattempt] at h
  cases h

end Library

/-! ## A sample job -/

/-- A job registered in the first week. -/
def sampleJob : JobRow where
  jobid := ascii "abcdefghij"
  dgJobid := ascii "https://lb/abcdefghij"
  owner := ascii "0123"
  regTime := 0

/-- A configuration of the backend. -/
def sampleConfig : Config where
  internalPath := ascii "/jp"
  externalPath := ascii "ftp://jp"

end JobProvenance
