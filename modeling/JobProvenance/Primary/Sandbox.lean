import JobProvenance.Lib.Memory
import JobProvenance.Primary.Plugins

/-!
# The sandbox plugin

The plugin that reads the archives with the sandboxes of jobs, by libtar. The
attribute `filename` lists the entries of an archive, the attributes of another
namespace are the contents of the files in it, by their names. All handles read by
one global offset in one global file, those that were set when a handle was opened
for the last time.

* `sandboxAttr`: the values of an attribute, an array that the caller reads with
  `attrList`;
* `sandboxPlugin`: the plugin as the primary storage uses it, when nothing else is
  open;
* `sandboxRouting_iff`: which files can be asked for. The primary storage takes for
  the namespace what stands in front of the last colon, the plugin looks for one
  anywhere, and at any length.
-/

namespace JobProvenance

/-! ## Attributes -/

def GLITE_JP_ISB_NS : Bytes := ascii "http://egee.cesnet.cz/en/Schema/JP/ISB"
def GLITE_JP_OSB_NS : Bytes := ascii "http://egee.cesnet.cz/en/Schema/JP/OSB"
def GLITE_JP_ATTR_ISB_FILENAME : Bytes := GLITE_JP_ISB_NS ++ ascii ":filename"
def GLITE_JP_ATTR_OSB_FILENAME : Bytes := GLITE_JP_OSB_NS ++ ascii ":filename"
def GLITE_JP_ISB_CONTENT_NS : Bytes := GLITE_JP_ISB_NS ++ ascii ":content"
def GLITE_JP_OSB_CONTENT_NS : Bytes := GLITE_JP_OSB_NS ++ ascii ":content"
def GLITE_JP_FILETYPE_ISB : Bytes := ascii "urn:org.glite.jp.primary:isb"

/-- The namespaces of the plugin. -/
def sandboxNamespaces : List Bytes :=
  [GLITE_JP_ISB_NS, GLITE_JP_OSB_NS, GLITE_JP_ISB_CONTENT_NS, GLITE_JP_OSB_CONTENT_NS]

/-- What an attribute may ask for. -/
inductive SandboxBranch
  | isbFilename
  | osbFilename
  | osbContent
  | isbContent
  | other
  deriving DecidableEq

/-- The branch of the plugin that an attribute takes. -/
def sandboxBranch (attr : Bytes) : SandboxBranch :=
  if attr = GLITE_JP_ATTR_ISB_FILENAME then .isbFilename
  else if attr = GLITE_JP_ATTR_OSB_FILENAME then .osbFilename
  else if (strstr GLITE_JP_OSB_CONTENT_NS attr).isSome then .osbContent
  else if (strstr GLITE_JP_ISB_CONTENT_NS attr).isSome then .isbContent
  else .other

/-- The name of the file an attribute asks for. It stands as far from the start of the
    attribute as one behind the namespace would. -/
def contentFileName (attr : Bytes) : Exec Bytes :=
  if GLITE_JP_ISB_CONTENT_NS.length < attr.length then
    .ok (attr.drop (GLITE_JP_ISB_CONTENT_NS.length + 1))
  else .error .fault

/-! ## Archives -/

/-- The size of the blocks of an archive. -/
def T_BLOCKSIZE : ℕ := 512

/-- The number of entries the list of files grows by. -/
def ALLOC_CHUNK : ℕ := 3

/-- The header of an entry. -/
structure TarHeader where
  pathname : Bytes
  mtime : ℤ
  size : ℕ
  isReg : Bool
  deriving DecidableEq

/-- The number of bytes in the blocks of contents of some size. -/
def paddedSize (size : ℕ) : ℕ := (size + (T_BLOCKSIZE - 1)) / T_BLOCKSIZE * T_BLOCKSIZE

/-- What is used of libtar: functions of the bytes that are left to read, which give also how
    many of them they read. A header takes a block at least, and the contents of a regular file
    are skipped when they are there. -/
structure Libtar where
  thRead : Bytes → Option TarHeader × ℕ
  skipRegfile : TarHeader → Bytes → Bool × ℕ
  le_of_thRead : ∀ rest, (thRead rest).1.isSome →
    T_BLOCKSIZE ≤ (thRead rest).2 ∧ (thRead rest).2 ≤ rest.length
  skipRegfile_of_le : ∀ th rest, th.isReg → paddedSize th.size ≤ rest.length →
    skipRegfile th rest = (true, paddedSize th.size)

/-- The number at the start of a field of a header. -/
def octal (field : Bytes) : ℕ :=
  ((field.dropWhile isSpace).takeWhile isDigit).foldl (fun n b => n * 8 + (b.toNat - 48)) 0

/-- The sum of the bytes of a header, those of the sum itself counted as blanks. -/
def headerSum (block : Bytes) : ℕ :=
  ((block.take 148 ++ List.replicate 8 (ch ' ') ++ block.drop 156).map UInt8.toNat).sum

/-- The header in a block. -/
def headerOf (block : Bytes) : TarHeader where
  pathname := cstr (block.take 100)
  mtime := octal ((block.drop 136).take 12)
  size := octal ((block.drop 124).take 12)
  isReg := (block.drop 156).head? ∈ [some 0, some (ch '0'), some (ch '7')]

/-- Headers of a block with short names, up to the block of zeros behind the last entry. -/
def ustar : Libtar where
  thRead rest :=
    let block := rest.take T_BLOCKSIZE
    if rest.length < T_BLOCKSIZE then (none, rest.length)
    else if block.head? = some 0 then (none, 2 * T_BLOCKSIZE)
    else if headerSum block = octal ((block.drop 148).take 8) then (some (headerOf block), T_BLOCKSIZE)
    else (none, T_BLOCKSIZE)
  skipRegfile th rest := (decide (paddedSize th.size ≤ rest.length), paddedSize th.size)
  le_of_thRead rest h := by
    dsimp only at h ⊢
    split_ifs at h ⊢ with hlt
    · cases h
    · cases h
    · exact ⟨le_rfl, not_lt.1 hlt⟩
    · cases h
  skipRegfile_of_le _ _ _ hle := by rw [decide_eq_true hle]

/-- The data for reading: the file, and the offset in it. -/
@[ext]
structure GlobalData where
  bhandle : Fhandle
  offset : ℕ
  offset_le : offset ≤ bhandle.filedata.bytes.length

namespace GlobalData

/-- The data as they are set when a handle is opened. -/
def opened (bhandle : Fhandle) : GlobalData := ⟨bhandle, 0, Nat.zero_le _⟩

/-- What is left to read. -/
def rest (g : GlobalData) : Bytes := g.bhandle.filedata.bytes.drop g.offset

/-- The data when some bytes more are read, at most those that are left. -/
def advance (g : GlobalData) (n : ℕ) : GlobalData :=
  ⟨g.bhandle, min (g.offset + n) g.bhandle.filedata.bytes.length, min_le_right _ _⟩

@[simp]
theorem rest_opened (bhandle : Fhandle) : (opened bhandle).rest = bhandle.filedata.bytes := rfl

@[simp]
theorem rest_advance (g : GlobalData) (n : ℕ) : (g.advance n).rest = g.rest.drop n := by
  simp only [rest, advance, List.drop_drop]
  rcases le_total (g.offset + n) g.bhandle.filedata.bytes.length with h | h
  · rw [min_eq_left h]
  · rw [min_eq_right h, List.drop_length, List.drop_of_length_le h]

end GlobalData

/-- Reads at the global offset: the bytes that were read, or the code of an error. -/
def myRead (g : GlobalData) (count : ℕ) : Exec (Except Errno Bytes × GlobalData) :=
  match pread g.bhandle count g.offset with
  | .ok bytes => .ok (.ok bytes, g.advance bytes.length)
  | .error (.errno e) => .ok (.error e, g)
  | .error s => .error s

/-- Reading a block takes it from what is left. -/
theorem myRead_eq (g : GlobalData) :
    myRead g T_BLOCKSIZE = .ok (.ok (g.rest.take T_BLOCKSIZE), g.advance T_BLOCKSIZE) := by
  rw [myRead, pread_eq g.offset_le (by decide)]
  refine congrArg (fun g => Except.ok (Except.ok _, g)) (GlobalData.ext rfl ?_)
  simp only [GlobalData.advance, List.length_take, List.length_drop]
  omega

/-! ## Values -/

/-- The values up to the end of an array: a cell without a name. -/
def attrList : Block (Option Attrval) → Exec (List Attrval)
  | some (some a) :: b => do
    let as ← attrList b
    return a :: as
  | some none :: _ => .ok []
  | _ => .error .fault

/-- A value that is found in an archive. -/
def sandboxValue (name value : Bytes) (th : TarHeader) : Attrval where
  name := name
  value := value
  binary := false
  size := 0
  origin := .file
  originDetail := none
  timestamp := th.mtime

/-- Gets a cell behind `count` values: of every `ALLOC_CHUNK`, the first makes the array grow. -/
def roomFor (attrval : Option (Block (Option Attrval))) (count : ℕ) :
    Exec (Block (Option Attrval)) :=
  if count % ALLOC_CHUNK = 0 then
    (Block.realloc attrval (count + ALLOC_CHUNK + 1)).writeAll count
      (List.replicate (ALLOC_CHUNK + 1) none)
  else Exec.deref attrval

/-- Puts a value behind `count` others. -/
def addValue (attrval : Option (Block (Option Attrval))) (count : ℕ) (a : Attrval) :
    Exec (Block (Option Attrval)) := do
  let b ← roomFor attrval count
  b.write count (some a)

/-- What is copied of a string into a place of `k` bytes, filled with zeros. -/
def strncpy (s : Bytes) (k : ℕ) : Bytes :=
  let s := cstr (s.take k)
  s ++ List.replicate (k - s.length) 0

/-- Writes a string over the bytes at `i`. -/
def putAt (value : Bytes) (i : ℕ) (s : Bytes) : Bytes :=
  value.take i ++ s ++ value.drop (i + s.length)

/-- Copies the contents of a file, from the block at `i` on, to the same place of `value`. -/
def copyTarBlocks (size i : ℕ) (value buf : Bytes) (g : GlobalData) :
    Exec (Except Errno Bytes × GlobalData) :=
  if i < size then do
    let (k, g) ← myRead g T_BLOCKSIZE
    match k with
    | .error e => return (.error e, g)
    | .ok bytes =>
      -- what was not read stays in the buffer
      let buf := bytes ++ buf.drop bytes.length
      -- `i` is an `int`
      if 2 ^ 31 ≤ i + T_BLOCKSIZE then .error .fault
      else
        let k := if size < i + T_BLOCKSIZE then size - i else bytes.length
        copyTarBlocks size (i + T_BLOCKSIZE) (putAt value i (strncpy buf k)) buf g
  else .ok (.ok value, g)
termination_by size - i
decreasing_by
  have : 0 < T_BLOCKSIZE := by decide
  omega

/-- Copying reads some bytes. -/
theorem rest_of_copyTarBlocks {size i : ℕ} {value buf : Bytes} {g g' : GlobalData}
    {r : Except Errno Bytes} (h : copyTarBlocks size i value buf g = .ok (r, g')) :
    ∃ n, g'.rest = g.rest.drop n := by
  fun_induction copyTarBlocks size i value buf g with
  | case1 i value buf g hi ih =>
    rw [myRead_eq, Exec.ok_bind] at h
    dsimp only at h
    split at h
    · cases h
    · obtain ⟨n, hn⟩ := ih _ _ h
      exact ⟨T_BLOCKSIZE + n, by rw [hn, GlobalData.rest_advance, List.drop_drop]⟩
  | case2 i value buf g hi =>
    cases h
    exact ⟨0, rfl⟩

/-! ## Operations -/

section Operations

variable (L : Libtar)

/-- Reads the next header, if there is one. -/
def thRead (g : GlobalData) : Option TarHeader × GlobalData :=
  ((L.thRead g.rest).1, g.advance (L.thRead g.rest).2)

/-- Skips the contents of a regular file: whether this does not fail. -/
def skipRegfile (th : TarHeader) (g : GlobalData) : Bool × GlobalData :=
  if th.isReg then ((L.skipRegfile th g.rest).1, g.advance (L.skipRegfile th g.rest).2)
  else (true, g)

variable {L} {g g' : GlobalData} {th : TarHeader}

theorem length_of_thRead (h : thRead L g = (some th, g')) : g'.rest.length < g.rest.length := by
  obtain ⟨h₁, rfl⟩ := Prod.mk.inj h
  have hle := L.le_of_thRead g.rest (by rw [h₁]; rfl)
  have hpos : 0 < T_BLOCKSIZE := by decide
  rw [GlobalData.rest_advance, List.length_drop]
  omega

theorem rest_skipRegfile (th : TarHeader) (g : GlobalData) :
    ∃ n, (skipRegfile L th g).2.rest = g.rest.drop n := by
  rw [skipRegfile]
  split_ifs
  · exact ⟨_, GlobalData.rest_advance g _⟩
  · exact ⟨0, rfl⟩

theorem length_skipRegfile_le {ok : Bool} (h : skipRegfile L th g = (ok, g')) :
    g'.rest.length ≤ g.rest.length := by
  obtain ⟨n, hn⟩ := rest_skipRegfile (L := L) th g
  rw [h] at hn
  rw [hn]
  exact (List.drop_sublist n _).length_le

theorem length_copyTarBlocks_le {size i : ℕ} {value buf : Bytes} {r : Except Errno Bytes}
    (h : copyTarBlocks size i value buf g = .ok (r, g')) : g'.rest.length ≤ g.rest.length := by
  obtain ⟨n, hn⟩ := rest_of_copyTarBlocks h
  rw [hn]
  exact (List.drop_sublist n _).length_le

/-- What is returned for an attribute: a return value, the array of values, and the data for
    reading. -/
abbrev SandboxResult := Ret × Option (Block (Option Attrval)) × GlobalData

variable (L) (stack : Bytes)

/-- Lists the entries, behind `count` values. -/
def listEntries (attrval : Option (Block (Option Attrval))) (count : ℕ) (g : GlobalData) :
    Exec SandboxResult :=
  match _h : thRead L g with
  | (none, g') => .ok (none, attrval, g')
  | (some th, g') => do
    let b ← addValue attrval count (sandboxValue GLITE_JP_ATTR_ISB_FILENAME th.pathname th)
    match _hs : skipRegfile L th g' with
    | (true, g'') => listEntries (some b) (count + 1) g''
    | (false, g'') => return (some Errno.EIO, some b, g'')
termination_by g.rest.length
decreasing_by exact (length_skipRegfile_le _hs).trans_lt (length_of_thRead _h)

/-- Looks for the entries of a name, and copies their contents; `stack` is what stands in the
    buffer before something is read into it. -/
def extractFiles (attr fileName : Bytes) (attrval : Option (Block (Option Attrval)))
    (g : GlobalData) : Exec SandboxResult :=
  match _h : thRead L g with
  | (none, g') => .ok (none, attrval, g')
  | (some th, g') =>
    if fileName = th.pathname then
      if th.isReg then
        match _hc : copyTarBlocks th.size 0 (List.replicate (th.size + 1) 0) stack g' with
        | .error s => .error s
        | .ok (.error e, g'') => .ok (some e, attrval, g'')
        | .ok (.ok value, g'') =>
          let a := sandboxValue attr (cstr value) th
          extractFiles attr fileName (some [some (some a), some none]) g''
      -- `assert(0)`
      else .error .fault
    else
      match _hs : skipRegfile L th g' with
      | (true, g'') => extractFiles attr fileName attrval g''
      | (false, g'') => .ok (some Errno.EIO, attrval, g'')
termination_by g.rest.length
decreasing_by
  · exact (length_copyTarBlocks_le _hc).trans_lt (length_of_thRead _h)
  · exact (length_skipRegfile_le _hs).trans_lt (length_of_thRead _h)

/-- The values of an attribute. -/
def sandboxAttr (attr : Bytes) (g : GlobalData) : Exec SandboxResult :=
  match sandboxBranch attr with
  | .isbFilename => listEntries L none 0 g
  | .isbContent => do
    let fileName ← contentFileName attr
    extractFiles L stack attr fileName none g
  -- the other branches print that they are not implemented
  | .osbFilename | .osbContent | .other => .ok (none, none, g)

/-- The plugin, when nothing is open beside a handle and nothing was read by it. -/
def sandboxPlugin : FilePlugin Fhandle where
  namespaces := sandboxNamespaces
  types := [(ascii "sandbox", GLITE_JP_FILETYPE_ISB)]
  «open» bhandle _ := .ok bhandle
  attr bhandle attr := do
    let (ret, attrval, _) ← sandboxAttr L stack attr (.opened bhandle)
    match ret, attrval with
    | some e, _ => .error (.errno e)
    | none, none => return []
    | none, some b => attrList b

end Operations

/-! ## The namespaces of an attribute -/

/-- The namespace whose attributes a branch is there for. -/
def SandboxBranch.nsName : SandboxBranch → Option Bytes
  | .isbFilename => some GLITE_JP_ISB_NS
  | .osbFilename => some GLITE_JP_OSB_NS
  | .osbContent => some GLITE_JP_OSB_CONTENT_NS
  | .isbContent => some GLITE_JP_ISB_CONTENT_NS
  | .other => none

/-- The attribute for the contents of a file. -/
def contentAttr (f : Bytes) : Bytes := GLITE_JP_ISB_CONTENT_NS ++ ch ':' :: f

/-- The contents of a file can be asked for: the primary storage takes the attribute for one of
    the namespace, whatever other plugins there are, and the plugin looks for the file. -/
structure Addressed (L : Libtar) (stack f : Bytes) : Prop where
  notMetadata : isMetadata (contentAttr f) = false
  inNamespace : attrNamespace (contentAttr f) = GLITE_JP_ISB_CONTENT_NS
  routed : ∀ plugins : List (FilePlugin Fhandle), sandboxPlugin L stack ∈ plugins →
    sandboxPlugin L stack ∈ pluginsOf plugins (attrNamespace (contentAttr f))
  looksUp : ∀ g, sandboxAttr L stack (contentAttr f) g =
    extractFiles L stack (contentAttr f) f none g

/-- An attribute of a namespace of the plugin takes no branch of another one. -/
def KeepsNamespace (name : Bytes) : Prop :=
  attrNamespace name ∈ sandboxNamespaces →
    ∀ ns ∈ (sandboxBranch name).nsName, ns = attrNamespace name

/-- An attribute of the namespaces of file names that starts like one of those of contents. -/
def NamedLikeContent (name : Bytes) : Prop :=
  ∃ x, ch ':' ∉ x ∧ ascii "content" <+: x ∧
    (name = GLITE_JP_ISB_NS ++ ch ':' :: x ∨ name = GLITE_JP_OSB_NS ++ ch ':' :: x)

section Routing

variable {H : Type} {plugins : List (FilePlugin H)} {p : FilePlugin H} {ns x f : Bytes}

theorem mem_pluginsOf (hp : p ∈ plugins) (hns : ns ∈ p.namespaces) : p ∈ pluginsOf plugins ns := by
  rw [pluginsOf, List.mem_flatMap]
  refine ⟨p, hp, List.mem_map.2 ⟨ns, List.mem_filter.2 ⟨hns, ?_⟩, rfl⟩⟩
  exact decide_eq_true rfl

/-- Contents are found in the namespace they are of. -/
theorem isSome_strstr_own (hns : ns = GLITE_JP_ISB_NS ∨ ns = GLITE_JP_OSB_NS) (hx : ch ':' ∉ x) :
    (strstr (ns ++ ascii ":content") (ns ++ ch ':' :: x)).isSome ↔ ascii "content" <+: x := by
  have hstart : ns ++ ascii ":content" <+: ns ++ ch ':' :: x ↔ ascii "content" <+: x := by
    rw [List.prefix_append_right_inj]
    exact List.cons_prefix_cons.trans (and_iff_right rfl)
  by_cases h : ascii "content" <+: x
  · rw [strstr_of_starts (hstart.2 h)]
    exact iff_of_true rfl h
  · refine iff_of_false ?_ h
    have hcut : ∃ b t, ns = b :: t ∧ ∀ u ∈ (t ++ [ch ':']).tails,
        u = [] ∨ ¬u <+: ns ++ ascii ":content" ∧ ¬ns ++ ascii ":content" <+: u := by
      rcases hns with rfl | rfl
      · exact ⟨_, _, rfl, by decide +kernel⟩
      · exact ⟨_, _, rfl, by decide +kernel⟩
    obtain ⟨b, t, hbt, htails⟩ := hcut
    have hname : ns ++ ch ':' :: x = b :: ((t ++ [ch ':']) ++ x) := by rw [hbt]; simp
    rw [hname, strstr_cons (hname ▸ mt hstart.1 h), strstr_append htails,
      @strstr_of_notMem _ _ (ch ':') (by simp [ascii]) hx]
    exact Bool.false_ne_true

theorem append_ne {a name : Bytes} (h : ¬a <+: name) (b : Bytes) : a ++ b ≠ name :=
  fun he => h (he ▸ List.prefix_append a b)

theorem branch_isb (hx : ch ':' ∉ x) : sandboxBranch (GLITE_JP_ISB_NS ++ ch ':' :: x) =
    if x = ascii "filename" then .isbFilename
    else if ascii "content" <+: x then .isbContent else .other := by
  have hname : GLITE_JP_ISB_NS ++ ch ':' :: x = GLITE_JP_ATTR_ISB_FILENAME ↔ x = ascii "filename" :=
    (List.append_right_inj _).trans (by simp [ascii])
  have hosb : strstr GLITE_JP_OSB_CONTENT_NS (GLITE_JP_ISB_NS ++ ch ':' :: x) = none := by
    rw [List.append_cons, strstr_append (by decide +kernel)]
    exact @strstr_of_notMem _ _ (ch ':') (by decide) hx
  have hisb := isSome_strstr_own (.inl rfl) hx
  rw [sandboxBranch, if_neg (append_ne (by decide) _ : _ ≠ GLITE_JP_ATTR_OSB_FILENAME), hosb]
  simp only [hname, Option.isSome_none, Bool.false_eq_true, if_false]
  exact if_congr Iff.rfl rfl (if_congr hisb rfl rfl)

theorem branch_osb (hx : ch ':' ∉ x) : sandboxBranch (GLITE_JP_OSB_NS ++ ch ':' :: x) =
    if x = ascii "filename" then .osbFilename
    else if ascii "content" <+: x then .osbContent else .other := by
  have hname : GLITE_JP_OSB_NS ++ ch ':' :: x = GLITE_JP_ATTR_OSB_FILENAME ↔ x = ascii "filename" :=
    (List.append_right_inj _).trans (by simp [ascii])
  have hisb : strstr GLITE_JP_ISB_CONTENT_NS (GLITE_JP_OSB_NS ++ ch ':' :: x) = none := by
    rw [List.append_cons, strstr_append (by decide +kernel)]
    exact @strstr_of_notMem _ _ (ch ':') (by decide) hx
  have hosb := isSome_strstr_own (.inr rfl) hx
  rw [sandboxBranch, if_neg (append_ne (by decide) _ : _ ≠ GLITE_JP_ATTR_ISB_FILENAME), hisb]
  simp only [hname, Option.isSome_none, Bool.false_eq_true, if_false]
  exact if_congr Iff.rfl rfl (if_congr hosb rfl rfl)

theorem contentAttr_ne {name : Bytes} (h : ¬GLITE_JP_ISB_CONTENT_NS <+: name) (f : Bytes) :
    contentAttr f ≠ name := append_ne h _

/-- Contents of the input sandbox, unless the name of the file says otherwise. -/
theorem branch_isbContent (f : Bytes) : sandboxBranch (contentAttr f) =
    if (strstr GLITE_JP_OSB_CONTENT_NS f).isSome then .osbContent else .isbContent := by
  have hosb : strstr GLITE_JP_OSB_CONTENT_NS (contentAttr f) = strstr GLITE_JP_OSB_CONTENT_NS f := by
    rw [contentAttr, List.append_cons, strstr_append (by decide +kernel)]
  have hisb : strstr GLITE_JP_ISB_CONTENT_NS (contentAttr f) = some (contentAttr f) :=
    strstr_of_starts (List.prefix_append _ _)
  rw [sandboxBranch, if_neg (contentAttr_ne (by decide) f), if_neg (contentAttr_ne (by decide) f),
    hosb, hisb]
  rfl

theorem branch_osbContent (f : Bytes) :
    sandboxBranch (GLITE_JP_OSB_CONTENT_NS ++ ch ':' :: f) = .osbContent := by
  rw [sandboxBranch, if_neg (append_ne (by decide) _), if_neg (append_ne (by decide) _),
    strstr_of_starts (List.prefix_append _ _)]
  rfl

theorem contentFileName_contentAttr (f : Bytes) : contentFileName (contentAttr f) = .ok f := by
  have hlt : GLITE_JP_ISB_CONTENT_NS.length < (contentAttr f).length := by
    rw [contentAttr, List.length_append, List.length_cons]
    omega
  rw [contentFileName, if_pos hlt, contentAttr, List.append_cons, List.drop_left' (by simp)]

/-- What is asked for, the plugin looks for. -/
theorem sandboxAttr_contentAttr {L : Libtar} {stack : Bytes}
    (hf : (strstr GLITE_JP_OSB_CONTENT_NS f).isSome = false) (g : GlobalData) :
    sandboxAttr L stack (contentAttr f) g = extractFiles L stack (contentAttr f) f none g := by
  rw [sandboxAttr, branch_isbContent, hf]
  change (contentFileName (contentAttr f) >>= _) = _
  rw [contentFileName_contentAttr, Exec.ok_bind]

theorem addressed_iff (L : Libtar) (stack f : Bytes) : Addressed L stack f ↔ ch ':' ∉ f := by
  constructor
  · intro h hf
    have hcolon : ch ':' ∈ contentAttr f := by simp [contentAttr]
    obtain ⟨x, hx, hattr⟩ := exists_of_mem_attr hcolon
    rw [h.inNamespace, contentAttr] at hattr
    exact hx ((List.cons.inj (List.append_cancel_left hattr)).2 ▸ hf)
  · intro hf
    have hns : attrNamespace (contentAttr f) = GLITE_JP_ISB_CONTENT_NS :=
      attrNamespace_append_cons hf _
    have hosb : strstr GLITE_JP_OSB_CONTENT_NS f = none :=
      @strstr_of_notMem _ _ (ch ':') (by decide) hf
    exact {
      notMetadata := by
        rw [isMetadata, decide_eq_false (contentAttr_ne (by decide) f),
          decide_eq_false (contentAttr_ne (by decide) f)]
        rfl
      inNamespace := hns
      routed := fun plugins hp => mem_pluginsOf hp (hns ▸ .tail _ (.tail _ (.head _)))
      looksUp := sandboxAttr_contentAttr (by rw [hosb]; rfl) }

/-- An attribute of one of the namespaces is the namespace, a colon and a name without one. -/
theorem exists_of_mem_namespaces {name : Bytes} (h : attrNamespace name ∈ sandboxNamespaces) :
    ∃ x, ch ':' ∉ x ∧ name = attrNamespace name ++ ch ':' :: x := by
  refine exists_of_mem_attr ?_
  by_contra hc
  rw [attrNamespace, afterLast, if_neg hc] at h
  have hnil : [] ∉ sandboxNamespaces := by decide
  exact hnil h

theorem namedLikeContent_iff (hx : ch ':' ∉ x) : NamedLikeContent (ns ++ ch ':' :: x) ↔
    (ns = GLITE_JP_ISB_NS ∨ ns = GLITE_JP_OSB_NS) ∧ ascii "content" <+: x := by
  have hinj {ns' y : Bytes} (hy : ch ':' ∉ y) (he : ns ++ ch ':' :: x = ns' ++ ch ':' :: y) :
      ns = ns' ∧ x = y := by
    have hns : ns = ns' := by
      rw [← attrNamespace_append_cons hx ns, he, attrNamespace_append_cons hy]
    subst hns
    exact ⟨rfl, (List.cons.inj (List.append_cancel_left he)).2⟩
  constructor
  · rintro ⟨y, hy, hcontent, he | he⟩
    · obtain ⟨rfl, rfl⟩ := hinj hy he
      exact ⟨.inl rfl, hcontent⟩
    · obtain ⟨rfl, rfl⟩ := hinj hy he
      exact ⟨.inr rfl, hcontent⟩
  · rintro ⟨rfl | rfl, hcontent⟩
    · exact ⟨x, hx, hcontent, .inl rfl⟩
    · exact ⟨x, hx, hcontent, .inr rfl⟩

/-- The branch of an attribute of one of the namespaces is one of another namespace when it is
    named like contents. -/
theorem nsName_branch_iff (hns : ns ∈ sandboxNamespaces) (hx : ch ':' ∉ x) :
    (∀ ns' ∈ (sandboxBranch (ns ++ ch ':' :: x)).nsName, ns' = ns) ↔
      ¬((ns = GLITE_JP_ISB_NS ∨ ns = GLITE_JP_OSB_NS) ∧ ascii "content" <+: x) := by
  have hfilename : ¬ascii "content" <+: ascii "filename" := by decide
  simp only [sandboxNamespaces, List.mem_cons, List.not_mem_nil, or_false] at hns
  rcases hns with rfl | rfl | rfl | rfl
  · rw [branch_isb hx, and_iff_right (.inl rfl)]
    split_ifs with hf hc
    · exact iff_of_true (fun _ h => (Option.some.inj h).symm) (hf ▸ hfilename)
    · refine iff_of_false (fun h => ?_) (not_not_intro hc)
      exact absurd (h _ rfl) (by decide)
    · exact iff_of_true nofun hc
  · rw [branch_osb hx, and_iff_right (.inr rfl)]
    split_ifs with hf hc
    · exact iff_of_true (fun _ h => (Option.some.inj h).symm) (hf ▸ hfilename)
    · refine iff_of_false (fun h => ?_) (not_not_intro hc)
      exact absurd (h _ rfl) (by decide)
    · exact iff_of_true nofun hc
  · have hosb : strstr GLITE_JP_OSB_CONTENT_NS x = none :=
      @strstr_of_notMem _ _ (ch ':') (by decide) hx
    have hbranch := branch_isbContent x
    rw [hosb] at hbranch
    rw [← contentAttr, hbranch]
    exact iff_of_true (fun _ h => (Option.some.inj h).symm) (fun h => absurd h.1 (by decide))
  · rw [branch_osbContent]
    exact iff_of_true (fun _ h => (Option.some.inj h).symm) (fun h => absurd h.1 (by decide))

theorem keepsNamespace_iff (name : Bytes) : KeepsNamespace name ↔ ¬NamedLikeContent name := by
  by_cases hmem : attrNamespace name ∈ sandboxNamespaces
  · obtain ⟨x, hx, hname⟩ := exists_of_mem_namespaces hmem
    have hiff := nsName_branch_iff hmem hx
    rw [← namedLikeContent_iff hx, ← hname] at hiff
    rw [KeepsNamespace, imp_iff_right hmem, hiff]
  · refine iff_of_true (fun h => absurd h hmem) ?_
    rintro ⟨x, hx, -, rfl | rfl⟩
    · exact hmem (attrNamespace_append_cons hx _ ▸ .head _)
    · exact hmem (attrNamespace_append_cons hx _ ▸ .tail _ (.head _))

/-- The contents of a file can be asked for when there is no colon in its name, and the plugin
    keeps the namespace of an attribute unless the attribute is one of file names that starts
    like one of contents. -/
theorem sandboxRouting_iff (L : Libtar) (stack : Bytes) :
    (∀ f, Addressed L stack f ↔ ch ':' ∉ f) ∧
      ∀ name, KeepsNamespace name ↔ ¬NamedLikeContent name :=
  ⟨addressed_iff L stack, keepsNamespace_iff⟩

/-- A file `a:b`, and an attribute `contents` of the namespace of file names. -/
theorem not_addressed_colon :
    (ascii "a:b" ≠ [] ∧ 0 ∉ ascii "a:b" ∧ ¬Addressed ustar [] (ascii "a:b")) ∧
      ¬KeepsNamespace (GLITE_JP_ISB_NS ++ ascii ":contents") := by
  refine ⟨⟨by decide, by decide, fun h => ?_⟩, fun h => ?_⟩
  · exact (addressed_iff _ _ _).1 h (by decide)
  · exact (keepsNamespace_iff _).1 h ⟨ascii "contents", by decide, by decide, .inl rfl⟩

end Routing

end JobProvenance
