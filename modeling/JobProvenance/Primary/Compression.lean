import JobProvenance.Lib.Stateful
import JobProvenance.Primary.Backend

/-!
# Compression of committed files

When an upload of more than `SIZE_TO_COMPRESS` bytes is committed, the file is
compressed: it is copied block by block to a compressed file beside it, which then
takes its place. Files are read through a library that decompresses those that look
compressed and passes the others through.

* `compressAndRemoveFile`: the copy, whichever of its steps fail;
* `readsBack_iff`: when reading gives what was uploaded, after any number of
  compressions;
* `left_compressAndRemoveFile`: what stands at the path afterwards, and `spared_iff`:
  when it is the content or all of it compressed. What steps return is not looked at
  in the copy, so it is not when a step has failed and the file is replaced.
-/

namespace JobProvenance

/-! ## Files as they are on the disk -/

/-- The files of the storage, byte by byte, by their paths. -/
abbrev RawDisk := Bytes → Option Bytes

/-- The library: compressing, and decompressing what is a compressed file. -/
structure Zlib where
  gzip : Bytes → Bytes
  gunzip : Bytes → Option Bytes
  gunzip_gzip (x : Bytes) : gunzip (gzip x) = some x

namespace Zlib

variable (z : Zlib)

/-- What is read of a file: other files than compressed ones are passed through. -/
def content (file : Bytes) : Bytes := (z.gunzip file).getD file

@[simp]
theorem content_gzip (x : Bytes) : z.content (z.gzip x) = x := by
  rw [content, z.gunzip_gzip]
  rfl

theorem gzip_injective : Function.Injective z.gzip := fun x y h => by
  rw [← z.content_gzip x, h, z.content_gzip]

/-- The storage as it is read. -/
def view (raw : RawDisk) : Disk := fun path => (raw path).map z.content

end Zlib

/-! ## A compression -/

/-- How the steps of a compression end: whether the files are opened, how many bytes a
    block can be read by, whether a block is written, and whether the compressed file is
    closed, with what is left of it when it is not, and renamed. -/
structure CompressRun where
  openSrc : Bool
  openDest : Bool
  reads : ℕ → ℕ
  writes : ℕ → Bool
  close : Bool
  left : Bytes
  rename : Bool

/-- The number of bytes that are copied at once. -/
def COPY_STEP : ℕ := 8192

/-- Copies what is left of a file, up to the first block of which nothing is read: what
    was read, and whether all of it was written. -/
def copyBlocks (io : CompressRun) (i : ℕ) (rest : Bytes) : Bytes × Bool :=
  let buf := rest.take (min COPY_STEP (io.reads i))
  if buf = [] then ([], true)
  else
    let copied := copyBlocks io (i + 1) (rest.drop (min COPY_STEP (io.reads i)))
    (buf ++ copied.1, io.writes i && copied.2)
termination_by rest.length
decreasing_by
  rename_i h
  rw [List.take_eq_nil_iff, not_or] at h
  have hlen := List.length_pos_of_ne_nil h.2
  rw [List.length_drop]
  omega

/-- What is written to a file, if it was opened. -/
def putFile (opened : Bool) (path file : Bytes) (disk : RawDisk) : RawDisk :=
  if opened then Function.update disk path (some file) else disk

/-- Renames a file, if there is one and it can be renamed. -/
def renameFile (renamed : Bool) (old new : Bytes) (disk : RawDisk) : RawDisk :=
  match renamed, disk old with
  | true, some file => Function.update (Function.update disk old none) new (some file)
  | _, _ => disk

section Compress

variable (z : Zlib) (config : Config) (jobs : List JobRow)

/-- Compresses a file of a job. Without a path, or without the file, what is not there is
    used; a file that is not open is written to in vain. -/
def compressAndRemoveFile (io : CompressRun) (job cls : Bytes) (name : Option Bytes) :
    EStateM Stop RawDisk Ret := do
  match getJobFname config jobs job cls name with
  | .error _ => throw .fault
  | .ok src =>
    let dest := src ++ ascii ".gz"
    let disk ← get
    let s := if io.openSrc then disk src else none
    modify (putFile io.openDest dest [])
    let content ← Exec.deref s
    let copied := copyBlocks io 0 content
    modify (putFile io.openDest dest
      (if copied.2 && io.close then z.gzip copied.1 else io.left))
    modify (renameFile io.rename dest src)
    return none

/-- Files up to this size are not compressed. -/
def SIZE_TO_COMPRESS : ℕ := 1024

/-- What is done about the size of a file that was committed: it is compressed if it can be
    opened and is large on the disk. -/
def compressCommitted (io : CompressRun) (job cls : Bytes) (name : Option Bytes) :
    EStateM Stop RawDisk Unit := do
  let disk ← get
  match openFile config jobs (z.view disk) job cls name O_RDONLY with
  | .error (.errno _) => pure ()
  | .error e => throw e
  | .ok (_, h) =>
    let size := ((disk h.filename).getD []).length
    if SIZE_TO_COMPRESS < size then
      let _ ← compressAndRemoveFile z config jobs io job cls name

end Compress

/-! ## What is copied -/

section Copy

variable {io : CompressRun} {content : Bytes} {i : ℕ}

/-- Where the blocks of a file begin, as they are read. -/
def CompressRun.offset (io : CompressRun) (i : ℕ) : ℕ :=
  ∑ j ∈ Finset.range i, min COPY_STEP (io.reads j)

theorem CompressRun.offset_succ : io.offset (i + 1) = io.offset i + min COPY_STEP (io.reads i) :=
  Finset.sum_range_succ _ _

/-- A file is read up to its end: no block of it is missing. -/
def CompressRun.ReadsAll (io : CompressRun) (content : Bytes) : Prop :=
  ∀ i, io.offset i < content.length → 0 < io.reads i

/-- Every block that is read is written. -/
def CompressRun.WritesAll (io : CompressRun) (content : Bytes) : Prop :=
  ∀ i, io.offset i < content.length → (∀ j ≤ i, 0 < io.reads j) → io.writes i = true

theorem copyBlocks_of_nil {rest : Bytes} (h : rest.take (min COPY_STEP (io.reads i)) = []) :
    copyBlocks io i rest = ([], true) := by
  rw [copyBlocks, if_pos h]

theorem copyBlocks_of_ne_nil {rest : Bytes} (h : rest.take (min COPY_STEP (io.reads i)) ≠ []) :
    copyBlocks io i rest = (rest.take (min COPY_STEP (io.reads i)) ++
      (copyBlocks io (i + 1) (rest.drop (min COPY_STEP (io.reads i)))).1,
      io.writes i && (copyBlocks io (i + 1) (rest.drop (min COPY_STEP (io.reads i)))).2) := by
  rw [copyBlocks, if_neg h]

/-- Nothing is read of a block when the end was reached, or reading fails. -/
theorem take_block_eq_nil : (content.drop (io.offset i)).take (min COPY_STEP (io.reads i)) = [] ↔
    io.offset i < content.length → io.reads i = 0 := by
  rw [List.take_eq_nil_iff, List.drop_eq_nil_iff, COPY_STEP]
  omega

theorem drop_block : (content.drop (io.offset i)).drop (min COPY_STEP (io.reads i)) =
    content.drop (io.offset (i + 1)) := by
  rw [List.drop_drop, CompressRun.offset_succ]

/-- What is left of a file that is read up to its end is copied. -/
theorem copyBlocks_fst (h : ∀ j, i ≤ j → io.offset j < content.length → 0 < io.reads j) :
    (copyBlocks io i (content.drop (io.offset i))).1 = content.drop (io.offset i) := by
  generalize hrest : content.drop (io.offset i) = rest
  induction i, rest using copyBlocks.induct io with
  | case1 i rest buf hnil =>
    rw [copyBlocks_of_nil hnil]
    subst hrest
    have hend : ¬io.offset i < content.length := fun hlt =>
      (h i le_rfl hlt).ne' (take_block_eq_nil.1 hnil hlt)
    exact (List.drop_eq_nil_of_le (not_lt.1 hend)).symm
  | case2 i rest buf hne ih =>
    rw [copyBlocks_of_ne_nil hne]
    subst hrest
    rw [ih (fun j hj => h j (by omega)) drop_block.symm]
    exact List.take_append_drop _ _

/-- Of a file reading fails at a block, what stands in front of the block is copied. -/
theorem copyBlocks_fst_of_zero {k : ℕ} (hik : i ≤ k) (hk : io.reads k = 0)
    (h : ∀ j, i ≤ j → j < k → 0 < io.reads j) :
    (copyBlocks io i (content.drop (io.offset i))).1 =
      (content.drop (io.offset i)).take (io.offset k - io.offset i) := by
  generalize hrest : content.drop (io.offset i) = rest
  induction i, rest using copyBlocks.induct io with
  | case1 i rest buf hnil =>
    rw [copyBlocks_of_nil hnil]
    subst hrest
    rcases hik.eq_or_lt with rfl | hlt
    · rw [Nat.sub_self, List.take_zero]
    · have hend : ¬io.offset i < content.length := fun hlt' =>
        (h i le_rfl hlt).ne' (take_block_eq_nil.1 hnil hlt')
      rw [List.drop_eq_nil_of_le (not_lt.1 hend), List.take_nil]
  | case2 i rest buf hne ih =>
    rw [copyBlocks_of_ne_nil hne]
    subst hrest
    have hreads : io.reads i ≠ 0 := fun hzero => hne (take_block_eq_nil.2 fun _ => hzero)
    have hlt : i < k := lt_of_le_of_ne hik fun heq => hreads (heq ▸ hk)
    have hmono : io.offset (i + 1) ≤ io.offset k :=
      Finset.sum_le_sum_of_subset (Finset.range_mono hlt)
    rw [ih hlt (fun j hj => h j (by omega)) drop_block.symm, drop_block]
    rw [CompressRun.offset_succ] at hmono ⊢
    rw [← List.drop_drop, ← List.take_add]
    dsimp only
    congr 1
    omega

theorem copyBlocks_snd : (copyBlocks io i (content.drop (io.offset i))).2 = true ↔
    ∀ j, i ≤ j → io.offset j < content.length → (∀ l, i ≤ l → l ≤ j → 0 < io.reads l) →
      io.writes j = true := by
  generalize hrest : content.drop (io.offset i) = rest
  induction i, rest using copyBlocks.induct io with
  | case1 i rest buf hnil =>
    rw [copyBlocks_of_nil hnil]
    subst hrest
    refine iff_of_true rfl fun j hj hlt hpos => ?_
    have hmono : io.offset i ≤ io.offset j := Finset.sum_le_sum_of_subset (Finset.range_mono hj)
    have hzero := take_block_eq_nil.1 hnil (by omega)
    have := hpos i le_rfl hj
    omega
  | case2 i rest buf hne ih =>
    rw [copyBlocks_of_ne_nil hne]
    subst hrest
    obtain ⟨hlt, hreads⟩ := Classical.not_imp.1 fun hzero => hne (take_block_eq_nil.2 hzero)
    rw [Bool.and_eq_true, ih drop_block.symm]
    constructor
    · rintro ⟨hi, hall⟩ j hj hjlt hpos
      rcases hj.eq_or_lt with rfl | hj
      · exact hi
      · exact hall j hj hjlt fun l hl => hpos l (by omega)
    · intro hall
      refine ⟨hall i le_rfl hlt fun l hl hl' => ?_, fun j hj hjlt hpos => ?_⟩
      · obtain rfl : l = i := by omega
        omega
      · refine hall j (by omega) hjlt fun l hl hlj => ?_
        rcases hl.eq_or_lt with rfl | hl
        · omega
        · exact hpos l hl hlj

/-- A file is copied when it is read up to its end. -/
theorem CompressRun.ReadsAll.copyBlocks (h : io.ReadsAll content) :
    (JobProvenance.copyBlocks io 0 content).1 = content :=
  copyBlocks_fst (i := 0) fun j _ => h j

/-- Otherwise what is read first of it is. -/
theorem exists_copyBlocks_of_not_readsAll (h : ¬io.ReadsAll content) :
    ∃ k, io.reads k = 0 ∧ (∀ j < k, 0 < io.reads j) ∧ io.offset k < content.length := by
  obtain ⟨i, hi⟩ := not_forall.1 h
  obtain ⟨hlt, hi⟩ := Classical.not_imp.1 hi
  have hex : ∃ k, io.reads k = 0 := ⟨i, by omega⟩
  have hmin := fun j => Nat.find_min hex (m := j)
  refine ⟨Nat.find hex, Nat.find_spec hex, fun j hj => Nat.pos_of_ne_zero (hmin j hj), ?_⟩
  have hle : io.offset (Nat.find hex) ≤ io.offset i :=
    Finset.sum_le_sum_of_subset (Finset.range_mono (Nat.find_min' hex (by omega)))
  omega

theorem copyBlocks_written : (copyBlocks io 0 content).2 = true ↔ io.WritesAll content := by
  refine (copyBlocks_snd (i := 0)).trans (forall_congr' fun j => ?_)
  simp only [Nat.zero_le, true_imp_iff]

end Copy

/-! ## What a compression leaves -/

section Left

variable {z : Zlib} {config : Config} {jobs : List JobRow} {io : CompressRun} {job cls : Bytes}
  {name : Option Bytes} {raw : RawDisk} {src content : Bytes}

theorem gz_ne (src : Bytes) : src ++ ascii ".gz" ≠ src := fun h => by
  have := congrArg List.length h
  simp [ascii] at this

theorem renameFile_apply {renamed : Bool} {old new : Bytes} {disk : RawDisk} :
    renameFile renamed old new disk new = if renamed then (disk old).or (disk new) else disk new := by
  cases renamed with
  | false => rfl
  | true =>
    simp only [renameFile]
    cases disk old with
    | none => rfl
    | some file => exact Function.update_self ..

/-- The compressed file as it is renamed. -/
def CompressRun.closedFile (z : Zlib) (io : CompressRun) (content : Bytes) : Bytes :=
  if (copyBlocks io 0 content).2 && io.close then z.gzip (copyBlocks io 0 content).1 else io.left

/-- After a compression, the compressed file stands at the path when there is one that is
    renamed, whether it was written or left there before. -/
theorem left_compressAndRemoveFile (hsrc : getJobFname config jobs job cls name = .ok src)
    (hfile : raw src = some content) :
    Stateful.left (compressAndRemoveFile z config jobs io job cls name raw) src =
      if io.openSrc && io.rename then
        (if io.openDest then some (io.closedFile z content) else raw (src ++ ascii ".gz")).or
          (some content)
      else some content := by
  have hput : ∀ (file : Bytes) (disk : RawDisk),
      putFile io.openDest (src ++ ascii ".gz") file disk src = disk src := by
    intro file disk
    rw [putFile]
    split
    · exact Function.update_of_ne (gz_ne src).symm _ _
    · rfl
  rw [compressAndRemoveFile, hsrc]
  dsimp only
  rw [Stateful.get_bind]
  cases io.openSrc with
  | false => exact (hput [] raw).trans hfile
  | true =>
    rw [if_pos rfl, hfile]
    change renameFile io.rename (src ++ ascii ".gz") src (putFile io.openDest (src ++ ascii ".gz")
      (io.closedFile z content) (putFile io.openDest (src ++ ascii ".gz") [] raw)) src = _
    rw [renameFile_apply, hput, hput, hfile, putFile, putFile, Bool.true_and]
    cases io.openDest with
    | false => rfl
    | true => rw [if_pos rfl, if_pos rfl, Function.update_self]; rfl

/-- A file is the content, or all of it compressed. -/
def Zlib.IsCopy (z : Zlib) (content file : Bytes) : Prop := file = content ∨ file = z.gzip content

/-- What a compression does not lose: the file is not replaced, or it is by all of its
    content, or by chance by what is as good. -/
def CompressRun.Spares (z : Zlib) (io : CompressRun) (raw : RawDisk) (src content : Bytes) : Prop :=
  io.openSrc = false ∨ io.rename = false ∨
    (io.openDest = false ∧ ∀ file, raw (src ++ ascii ".gz") = some file → z.IsCopy content file) ∨
    (io.openDest = true ∧ io.close = true ∧ io.WritesAll content ∧
      (io.ReadsAll content ∨ ∃ k, io.reads k = 0 ∧ (∀ j < k, 0 < io.reads j) ∧
        z.gzip (content.take (io.offset k)) = content)) ∨
    (io.openDest = true ∧ ¬(io.close = true ∧ io.WritesAll content) ∧ z.IsCopy content io.left)

theorem isCopy_closedFile : z.IsCopy content (io.closedFile z content) ↔
    (io.close = true ∧ io.WritesAll content ∧ (io.ReadsAll content ∨ ∃ k, io.reads k = 0 ∧
      (∀ j < k, 0 < io.reads j) ∧ z.gzip (content.take (io.offset k)) = content)) ∨
    (¬(io.close = true ∧ io.WritesAll content) ∧ z.IsCopy content io.left) := by
  have hcond : ((copyBlocks io 0 content).2 && io.close) = true ↔
      io.close = true ∧ io.WritesAll content := by
    rw [Bool.and_eq_true, copyBlocks_written, and_comm]
  rw [CompressRun.closedFile]
  by_cases h : io.close = true ∧ io.WritesAll content
  · rw [if_pos (hcond.2 h), or_iff_left fun hn => hn.1 h, and_iff_right h.1, and_iff_right h.2]
    by_cases hall : io.ReadsAll content
    · rw [hall.copyBlocks]
      exact iff_of_true (.inr rfl) (.inl hall)
    · -- only a part of the content is compressed, and whatever it is compressed to
      -- decompresses to this part
      rw [or_iff_right hall]
      obtain ⟨k, hk, hpos, hlt⟩ := exists_copyBlocks_of_not_readsAll hall
      have hcopied : (copyBlocks io 0 content).1 = content.take (io.offset k) :=
        copyBlocks_fst_of_zero (i := 0) k.zero_le hk fun j _ => hpos j
      have hpart : z.gzip (content.take (io.offset k)) ≠ z.gzip content := fun heq => by
        have := congrArg List.length (z.gzip_injective heq)
        rw [List.length_take] at this
        omega
      rw [hcopied, Zlib.IsCopy, or_iff_left hpart]
      refine ⟨fun heq => ⟨k, hk, hpos, heq⟩, ?_⟩
      rintro ⟨k', hk', hpos', heq⟩
      obtain rfl : k = k' := by
        rcases lt_trichotomy k k' with hlt' | heq' | hlt'
        · exact absurd (hpos' k hlt') (by omega)
        · exact heq'
        · exact absurd (hpos k' hlt') (by omega)
      exact heq
  · rw [if_neg (mt hcond.1 h), or_iff_right fun hp => h ⟨hp.1, hp.2.1⟩, and_iff_right h]

/-- A compression leaves the content or all of it compressed at the path exactly when no
    step fails on which the replacement depends, or by chance. -/
theorem spared_iff (hsrc : getJobFname config jobs job cls name = .ok src)
    (hfile : raw src = some content) :
    (∃ file, Stateful.left (compressAndRemoveFile z config jobs io job cls name raw) src = some file ∧
      z.IsCopy content file) ↔ io.Spares z raw src content := by
  have hself : ∃ file, some content = some file ∧ z.IsCopy content file := ⟨content, rfl, .inl rfl⟩
  rw [left_compressAndRemoveFile hsrc hfile, CompressRun.Spares]
  cases io.openSrc with
  | false => exact iff_of_true hself (.inl rfl)
  | true =>
    cases io.rename with
    | false => exact iff_of_true hself (.inr (.inl rfl))
    | true =>
      rw [Bool.true_and, if_pos rfl, or_iff_right (by decide), or_iff_right (by decide)]
      cases io.openDest with
      | true =>
        have hsome : (∃ file, (some (io.closedFile z content)).or (some content) = some file ∧
            z.IsCopy content file) ↔ z.IsCopy content (io.closedFile z content) := by
          simp
        rw [if_pos rfl, hsome, isCopy_closedFile]
        simp only [true_and, Bool.true_eq_false, false_and, false_or]
      | false =>
        rw [if_neg (by decide)]
        cases raw (src ++ ascii ".gz") with
        | none => exact iff_of_true hself (.inl ⟨rfl, nofun⟩)
        | some old => simp

/-! ## Reading what was uploaded -/

/-- Nothing fails. -/
def CompressRun.works : CompressRun :=
  ⟨true, true, fun _ => COPY_STEP, fun _ => true, true, [], true⟩

/-- Opening a file of a job for reading, and reading at any place of it, gives bytes that
    were uploaded. -/
def ReadsBack (z : Zlib) (config : Config) (jobs : List JobRow) (job cls : Bytes)
    (name : Option Bytes) (raw : RawDisk) (uploaded : Bytes) : Prop :=
  ∃ disk h, openFile config jobs (z.view raw) job cls name O_RDONLY = .ok (disk, h) ∧
    ∀ nbytes offset, offset ≤ uploaded.length → nbytes < 2 ^ 32 →
      pread h nbytes offset = .ok ((uploaded.drop offset).take nbytes)

/-- The disk after a number of compressions. -/
def compressed (z : Zlib) (config : Config) (jobs : List JobRow) (job cls : Bytes)
    (name : Option Bytes) (raw : RawDisk) : ℕ → RawDisk
  | 0 => raw
  | n + 1 => Stateful.left
      (compressAndRemoveFile z config jobs .works job cls name
        (compressed z config jobs job cls name raw n))

/-- Reading a file gives what the library makes of it, unless this is too long. -/
theorem readsBack_iff_content {file uploaded : Bytes}
    (hsrc : getJobFname config jobs job cls name = .ok src) (hfile : raw src = some file) :
    ReadsBack z config jobs job cls name raw uploaded ↔
      uploaded.length < 2 ^ 31 ∧ z.content file = uploaded := by
  have hview : z.view raw src = some (z.content file) := by rw [Zlib.view, hfile]; rfl
  constructor
  · rintro ⟨disk, h, hopen, hread⟩
    obtain ⟨filedata, hdata, heq⟩ := (openFile_some hsrc hview (by decide)).1 hopen
    obtain ⟨-, rfl⟩ := Prod.mk.inj heq
    have hlt := filedata.length_lt
    have hdrop : ∀ offset, offset ≤ uploaded.length → offset ≤ filedata.bytes.length := fun offset ho =>
      (length_pread (hread 0 offset ho (by decide))).1
    have hlen : uploaded.length ≤ filedata.bytes.length := hdrop _ le_rfl
    have hall := hread filedata.bytes.length 0 (Nat.zero_le _) (by omega)
    rw [pread_eq (Nat.zero_le _) (by omega), List.drop_zero, List.drop_zero,
      List.take_length, List.take_of_length_le hlen] at hall
    have heq := Except.ok.inj hall
    exact ⟨heq ▸ hlt, by rw [← hdata, heq]⟩
  · rintro ⟨hlt, rfl⟩
    refine ⟨_, _, (openFile_some hsrc hview (by decide)).2 ⟨⟨_, hlt⟩, rfl, rfl⟩,
      fun nbytes offset ho hn => ?_⟩
    exact pread_eq ho (by omega)

theorem CompressRun.closedFile_works (content : Bytes) :
    CompressRun.works.closedFile z content = z.gzip content := by
  have hreads : CompressRun.works.ReadsAll content := fun _ _ => (by decide : 0 < COPY_STEP)
  have hwrites : CompressRun.works.WritesAll content := fun _ _ _ => rfl
  rw [CompressRun.closedFile, copyBlocks_written.2 hwrites, hreads.copyBlocks]
  rfl

/-- A compression that works replaces the file. -/
theorem compress_works (hsrc : getJobFname config jobs job cls name = .ok src)
    (hfile : raw src = some content) :
    Stateful.left (compressAndRemoveFile z config jobs .works job cls name raw) src =
      some (z.gzip content) := by
  rw [left_compressAndRemoveFile hsrc hfile, CompressRun.closedFile_works]
  rfl

theorem compressed_eq (hsrc : getJobFname config jobs job cls name = .ok src)
    (hfile : raw src = some content) (n : ℕ) :
    compressed z config jobs job cls name raw n src = some (z.gzip^[n] content) := by
  induction n with
  | zero => exact hfile
  | succ n ih => rw [compressed, compress_works hsrc ih, Function.iterate_succ_apply']

theorem content_eq_iff : z.content content = content ↔
    z.gunzip content = none ∨ z.gunzip content = some content := by
  rw [Zlib.content]
  cases z.gunzip content <;> simp

/-- A committed file is compressed when it is large, and can be opened. -/
theorem left_compressCommitted (hsrc : getJobFname config jobs job cls name = .ok src)
    (hfile : raw src = some content) :
    Stateful.left (compressCommitted z config jobs .works job cls name raw) =
      compressed z config jobs job cls name raw
        (if SIZE_TO_COMPRESS < content.length ∧ (z.content content).length < 2 ^ 31 then 1 else 0) := by
  have hview : z.view raw src = some (z.content content) := by rw [Zlib.view, hfile]; rfl
  rw [compressCommitted, Stateful.get_bind]
  by_cases hlt : (z.content content).length < 2 ^ 31
  · rw [(openFile_some hsrc hview (by decide)).2 ⟨⟨_, hlt⟩, rfl, rfl⟩]
    dsimp only
    rw [hfile, Option.getD_some]
    by_cases hsize : SIZE_TO_COMPRESS < content.length
    · rw [if_pos hsize, if_pos ⟨hsize, hlt⟩, compressed, compressed, Stateful.bind_eq]
      cases compressAndRemoveFile z config jobs .works job cls name raw <;> rfl
    · rw [if_neg hsize, if_neg fun h => hsize h.1]
      rfl
  · have hopen : openFile config jobs (z.view raw) job cls name O_RDONLY = .error .fault := by
      rw [openFile, hsrc, Exec.ok_bind]
      simp only [hview, load_eq, Filedata.empty, List.nil_append, Filedata.ofBytes_of_not_lt hlt]
      rfl
    rw [hopen, if_neg fun h => hlt h.2]
    rfl

/-- What is read back of a file: what was uploaded, when it was compressed once, or never
    and does not look compressed; when it was compressed more often, only if it is what
    comes of compressing it over and over. -/
theorem readsBack_iff (hsrc : getJobFname config jobs job cls name = .ok src)
    (hfile : raw src = some content) :
    (∀ n, ReadsBack z config jobs job cls name (compressed z config jobs job cls name raw n) content ↔
      content.length < 2 ^ 31 ∧
        (n = 0 → z.gunzip content = none ∨ z.gunzip content = some content) ∧
        (1 < n → z.gzip^[n - 1] content = content)) ∧
    (ReadsBack z config jobs job cls name
        (Stateful.left (compressCommitted z config jobs .works job cls name raw)) content ↔
      content.length < 2 ^ 31 ∧
        (z.gunzip content = none ∨ z.gunzip content = some content ∨
          SIZE_TO_COMPRESS < content.length ∧ (z.content content).length < 2 ^ 31)) := by
  constructor
  · intro n
    rw [readsBack_iff_content hsrc (compressed_eq hsrc hfile n)]
    refine and_congr_right fun _ => ?_
    cases n with
    | zero => simp [content_eq_iff]
    | succ n =>
      rw [Function.iterate_succ_apply', z.content_gzip]
      cases n with
      | zero => simp
      | succ n => simp
  · rw [left_compressCommitted hsrc hfile, readsBack_iff_content hsrc (compressed_eq hsrc hfile _)]
    refine and_congr_right fun _ => ?_
    split
    · rename_i h
      exact iff_of_true (z.content_gzip content) (.inr (.inr h))
    · rename_i h
      rw [or_iff_left h, Function.iterate_zero, id, content_eq_iff]

end Left

/-! ## A file of twenty bytes -/

/-- How a compressed file starts. -/
def gzHeader : Bytes := [0x1f, 0x8b, 8, 0, 0, 0, 0, 0, 0, 3]

/-- Nothing, compressed. -/
def emptyGz : Bytes := gzHeader ++ [3, 0, 0, 0, 0, 0, 0, 0, 0, 0]

/-- A library that stores what it cannot make smaller. -/
def storing : Zlib where
  gzip x := if x = [] then emptyGz else gzHeader ++ 1 :: x
  gunzip file :=
    if file = emptyGz then some []
    else if file.take 11 = gzHeader ++ [1] then some (file.drop 11) else none
  gunzip_gzip x := by
    by_cases hx : x = []
    · rw [if_pos hx, if_pos rfl, hx]
    · have hne : gzHeader ++ 1 :: x ≠ emptyGz := fun h => by
        have hbyte : some (1 : UInt8) = some 3 := congrArg (·[10]?) h
        exact absurd hbyte (by decide)
      have htake : (gzHeader ++ 1 :: x).take 11 = gzHeader ++ [1] := rfl
      rw [if_neg hx, if_neg hne, if_pos htake]
      rfl

/-- A storage with one file, of the sample job. -/
def oneFile (src file : Bytes) : RawDisk := Function.update (fun _ => none) src (some file)

theorem oneFile_self (src file : Bytes) : oneFile src file src = some file :=
  Function.update_self ..

theorem exists_src : ∃ src,
    getJobFname sampleConfig [sampleJob] sampleJob.dgJobid (ascii "out") none = .ok src :=
  Exec.exists_of_isOk (by decide +kernel)

/-- What was uploaded compressed is read decompressed, since it is too small to be
    compressed once more. -/
theorem not_readsBack_emptyGz : ∃ src,
    getJobFname sampleConfig [sampleJob] sampleJob.dgJobid (ascii "out") none = .ok src ∧
      ¬ReadsBack storing sampleConfig [sampleJob] sampleJob.dgJobid (ascii "out") none
        (Stateful.left (compressCommitted storing sampleConfig [sampleJob] .works sampleJob.dgJobid
          (ascii "out") none (oneFile src emptyGz))) emptyGz := by
  obtain ⟨src, hsrc⟩ := exists_src
  refine ⟨src, hsrc, ?_⟩
  rw [left_compressCommitted hsrc (oneFile_self ..),
    readsBack_iff_content hsrc (compressed_eq hsrc (oneFile_self ..) _)]
  decide +kernel

theorem readsBack_iff_sample : ∃ src,
    getJobFname sampleConfig [sampleJob] sampleJob.dgJobid (ascii "out") none = .ok src ∧
      ∀ n, ReadsBack storing sampleConfig [sampleJob] sampleJob.dgJobid (ascii "out") none
        (compressed storing sampleConfig [sampleJob] sampleJob.dgJobid (ascii "out") none
          (oneFile src emptyGz) n) emptyGz ↔
        emptyGz.length < 2 ^ 31 ∧
          (n = 0 → storing.gunzip emptyGz = none ∨ storing.gunzip emptyGz = some emptyGz) ∧
          (1 < n → storing.gzip^[n - 1] emptyGz = emptyGz) := by
  obtain ⟨src, hsrc⟩ := exists_src
  exact ⟨src, hsrc, (readsBack_iff (z := storing) hsrc (oneFile_self src emptyGz)).1⟩

/-- No block can be written. -/
def diskFull : CompressRun := { CompressRun.works with writes := fun _ => false }

/-- The file is replaced by one in which there is nothing. -/
theorem not_spared_diskFull : ∃ src,
    getJobFname sampleConfig [sampleJob] sampleJob.dgJobid (ascii "out") none = .ok src ∧
      ¬∃ file, Stateful.left (compressAndRemoveFile storing sampleConfig [sampleJob] diskFull
          sampleJob.dgJobid (ascii "out") none (oneFile src (ascii "record"))) src = some file ∧
        storing.IsCopy (ascii "record") file := by
  obtain ⟨src, hsrc⟩ := exists_src
  refine ⟨src, hsrc, ?_⟩
  have hwrites : ¬diskFull.WritesAll (ascii "record") := fun h =>
    absurd (h 0 (by decide) fun _ _ => (by decide : 0 < COPY_STEP)) (by decide)
  have hclosed : diskFull.closedFile storing (ascii "record") = [] := by
    rw [CompressRun.closedFile, Bool.eq_false_iff.2 (mt copyBlocks_written.1 hwrites)]
    rfl
  rw [left_compressAndRemoveFile hsrc (oneFile_self ..), hclosed]
  rintro ⟨file, hfile, hcopy⟩
  obtain rfl : [] = file := Option.some.inj hfile
  rcases hcopy with hcopy | hcopy
  · exact absurd hcopy (by decide)
  · exact absurd hcopy (by decide)

theorem spared_iff_sample : ∃ src,
    getJobFname sampleConfig [sampleJob] sampleJob.dgJobid (ascii "out") none = .ok src ∧
      ((∃ file, Stateful.left (compressAndRemoveFile storing sampleConfig [sampleJob] diskFull
          sampleJob.dgJobid (ascii "out") none (oneFile src (ascii "record"))) src = some file ∧
        storing.IsCopy (ascii "record") file) ↔
      diskFull.Spares storing (oneFile src (ascii "record")) src (ascii "record")) := by
  obtain ⟨src, hsrc⟩ := exists_src
  exact ⟨src, hsrc, spared_iff hsrc (oneFile_self ..)⟩

end JobProvenance
