import JobProvenance.Primary.Backend

/-!
# Tag files

The annotations of a job are kept in a file of the class `tags`: a magic number
and one record for each tag, four bytes of length in front of the name, the
time with the kind of the value, and the value.

* `tagAppend_eq`: appending a tag to a file of tags gives the file of the tags
  and the new one;
* `tagsread_fileBytes`: reading a file of tags gives its tags in order, each
  `stored` as the reader leaves it, without a size;
* `tagsRoundTrip_iff`: so tags come back unless a binary one has a value;
* `tagValues_appendTags`: what was read before a call is a prefix of what is
  read after it.
-/

namespace JobProvenance

/-- The magic number in front of a file of tags. -/
def TAGS_MAGIC : Bytes := htonl 0x74c016f2

/-- The open file of the tags of a job, and the tags read from it so far. -/
structure TagsHandle where
  bhandle : Fhandle
  tags : List Attrval

/-! ## Appending -/

/-- The time and the kind of a tag, as its record has them. -/
def tagHeader (tag : Attrval) : Bytes :=
  printDec tag.timestamp ++ [ch ' ', if tag.binary then ch 'B' else ch 'S']

/-- The bytes of the value of a tag. -/
def tagValue (tag : Attrval) : Exec Bytes :=
  if tag.binary then
    if tag.size ≤ tag.value.length then .ok (tag.value.take tag.size) else .error .fault
  else .ok (cstr tag.value)

/-- Appends the record of a tag, behind the magic number when the file is
    empty. -/
def tagAppend (h : Fhandle) (tag : Attrval) : Exec Fhandle := do
  let magic ← pread h 4 0
  let h ← if magic.length = 0 then pwrite h TAGS_MAGIC 0
    else if magic.length ≠ 4 then throw (.errno Errno.EIO)
    else if magic ≠ TAGS_MAGIC then throw (.errno .EINVAL)
    else pure h
  let name := cstr tag.name
  let hdr := tagHeader tag
  let value ← tagValue tag
  let len := name.length + hdr.length + 2 + value.length
  -- the record is allocated with its length as a 32-bit number
  let rlen := len % 2 ^ 32
  if rlen < len then throw .fault
  append h (htonl rlen ++ (name ++ 0 :: (hdr ++ 0 :: value)))

/-! ## Reading -/

/-- Reads the rest of a record; at the end of the file this makes no progress. -/
def readBody (h : Fhandle) (off rlen : ℕ) (rec : Bytes) : Exec Bytes :=
  if _hlt : rec.length < rlen then do
    let r ← pread h (rlen - rec.length) (off + rec.length)
    if _hr : r = [] then throw .hang else readBody h off rlen (rec ++ r)
  else return rec
termination_by rlen - rec.length
decreasing_by
  have := List.length_pos_iff.2 _hr
  rw [List.length_append]
  omega

/-- Parses a record. Its two strings have to end inside it, and a kind that is
    not there is read from a variable nothing was stored in. -/
def parseRecord (rec : Bytes) : Exec Attrval := do
  let some name := cstr? rec | throw .fault
  let rp := rec.drop (name.length + 1)
  let some hdr := cstr? rp | throw .fault
  let some (timestamp, rest) := scanDec hdr | throw .fault
  let type :: _ := rest.dropWhile isSpace | throw .fault
  let value := rp.drop (hdr.length + 1)
  if type = ch 'B' ∨ type = ch 'S' then
    return { name, value, binary := type == ch 'B', size := 0, origin := .user,
             originDetail := none, timestamp }
  else throw (.errno .EINVAL)

/-- Reads the records from an offset on; a record of an unknown kind drops all
    tags. -/
def tagsreadFrom (h : Fhandle) (off : ℕ) (tags : List Attrval) : Exec (Ret × List Attrval) :=
  match _hr : pread h 4 off with
  | .error e => .error e
  | .ok r =>
    if r.length = 0 then .ok (none, tags)
    else if r.length ≠ 4 then .ok (some Errno.EIO, tags)
    else
      match readBody h (off + 4) (ntohl r) [] with
      | .error e => .error e
      | .ok rec =>
        match parseRecord rec with
        | .error (.errno e) => .ok (some e, [])
        | .error e => .error e
        | .ok tag => tagsreadFrom h (off + 4 + ntohl r) (tags ++ [tag])
termination_by h.filedata.bytes.length - off
decreasing_by
  have := length_pread _hr
  omega

/-- Reads all tags of a file. -/
def tagsread (h : TagsHandle) : Exec (Ret × TagsHandle) := do
  let magic ← pread h.bhandle 4 0
  if magic.length ≠ 4 then return (some Errno.EIO, h)
  else if magic ≠ TAGS_MAGIC then return (some .EINVAL, h)
  else
    let (ret, tags) ← tagsreadFrom h.bhandle 4 h.tags
    return (ret, { h with tags })

/-- The tags of a name. -/
def tagAttr (h : TagsHandle) (attr : Bytes) : Exec (List Attrval) := do
  let h ← if h.tags = [] then do
      let (_, h) ← tagsread h
      pure h
    else pure h
  if h.tags = [] then throw (.errno .ENOENT)
  let out ← (h.tags.filter (·.name = attr)).mapM Attrval.copy
  if out = [] then throw (.errno .ENOENT)
  return out

/-! ## The operations of the backend -/

/-- Appends tags one after the other, up to the first that fails: the return
    value and the handle then. -/
def appendLoop (h : Fhandle) : List Attrval → Exec (Ret × Fhandle)
  | [] => .ok (none, h)
  | tag :: tags =>
    match tagAppend h tag with
    | .ok h => appendLoop h tags
    | .error (.errno _) => .ok (some Errno.EIO, h)
    | .error e => .error e

/-- Appends tags to the file of a job: the return value and the disk. -/
def appendTags (config : Config) (jobs : List JobRow) (disk : Disk) (jobid : Bytes)
    (attr : List Attrval) : Exec (Ret × Disk) :=
  match openFile config jobs disk jobid (ascii "tags") none (O_RDWR ||| O_CREAT) with
  | .error (.errno _) => .ok (some Errno.EIO, disk)
  | .error e => .error e
  | .ok (disk, h) => do
    let (ret, h) ← appendLoop h attr
    return (ret, closeFile disk h)

/-- The tags of a job of a name. -/
def readTag (config : Config) (jobs : List JobRow) (disk : Disk) (jobid attr : Bytes) :
    Exec (List Attrval) :=
  match openFile config jobs disk jobid (ascii "tags") none O_RDONLY with
  | .error (.errno _) => .error (.errno Errno.EIO)
  | .error e => .error e
  | .ok (_, h) =>
    match tagAttr { bhandle := h, tags := [] } attr with
    | .error (.errno _) => .error (.errno Errno.EIO)
    | .error e => .error e
    | .ok attrval => .ok attrval

/-! ## Files of tags -/

section FilesOfTags

variable {h h' : Fhandle} {tag : Attrval} {tags : List Attrval}

/-- The record of a tag without its length. -/
def recordBody (tag : Attrval) : Bytes := tag.name ++ 0 :: (tagHeader tag ++ 0 :: tag.value)

/-- The record of a tag. -/
def record (tag : Attrval) : Bytes := htonl (recordBody tag).length ++ recordBody tag

/-- The file of a list of tags. -/
def fileBytes (tags : List Attrval) : Bytes :=
  if tags = [] then [] else TAGS_MAGIC ++ tags.flatMap record

/-- A tag as the reader leaves it: the bytes of its value, but no size. -/
def stored (tag : Attrval) : Attrval :=
  { tag with size := 0, origin := .user, originDetail := none }

@[simp]
theorem fileBytes_nil : fileBytes [] = [] := rfl

theorem fileBytes_of_ne_nil (ht : tags ≠ []) : fileBytes tags = TAGS_MAGIC ++ tags.flatMap record :=
  if_neg ht

theorem fileBytes_append_singleton (tags : List Attrval) (tag : Attrval) :
    fileBytes (tags ++ [tag]) =
      (if tags = [] then TAGS_MAGIC else fileBytes tags) ++ record tag := by
  by_cases ht : tags = []
  · simp [ht, fileBytes]
  · rw [if_neg ht, fileBytes_of_ne_nil (by simp), fileBytes_of_ne_nil ht]
    simp

theorem length_recordBody (tag : Attrval) : (recordBody tag).length =
    tag.name.length + (tagHeader tag).length + 2 + tag.value.length := by
  simp only [recordBody, List.length_append, List.length_cons]
  omega

theorem tagValue_eq (ht : tag.WellFormed) : tagValue tag = .ok tag.value := by
  cases hb : tag.binary with
  | true => simp [tagValue, hb, ← ht.value_size hb]
  | false => simp [tagValue, hb, cstr_eq_self (ht.value_nul hb)]

/-- The magic number of a file of tags is what the writer looks for. -/
theorem take_fileBytes (ht : tags ≠ []) : (fileBytes tags).take 4 = TAGS_MAGIC := by
  rw [fileBytes_of_ne_nil ht]
  exact List.take_left' (length_htonl _)

/-- Appending a tag to a file of tags gives the file of the tags and the new
    one, if its size is an `int`. -/
theorem tagAppend_eq (hm : h.filemode % 4 ≠ 0) (hd : h.filedata.bytes = fileBytes tags)
    (ht : tag.WellFormed) : tagAppend h tag = (do
      let filedata ← Filedata.ofBytes (fileBytes (tags ++ [tag]))
      return { h with filedata, modified := true }) := by
  have hrec : htonl (recordBody tag).length ++ recordBody tag = record tag := rfl
  -- the record, once the magic number is there
  have key : ∀ h₁ : Fhandle, h₁.filedata.bytes = (if tags = [] then TAGS_MAGIC else fileBytes tags) →
      h₁.filename = h.filename → h₁.filemode = h.filemode →
      (if (recordBody tag).length % 2 ^ 32 < (recordBody tag).length then throw .fault
        else append h₁ (htonl ((recordBody tag).length % 2 ^ 32) ++ recordBody tag)) = (do
      let filedata ← Filedata.ofBytes (fileBytes (tags ++ [tag]))
      return { h with filedata, modified := true }) := by
    intro h₁ hd₁ hn₁ hm₁
    rw [fileBytes_append_singleton, ← hd₁]
    by_cases hlt : (recordBody tag).length < 2 ^ 32
    · rw [Nat.mod_eq_of_lt hlt, if_neg (lt_irrefl _), append, hrec, hn₁, hm₁]
    · rw [if_pos (by omega), Filedata.ofBytes_of_not_lt]
      · rfl
      · simp only [record, List.length_append]
        omega
  have hbody : cstr tag.name ++ 0 :: (tagHeader tag ++ 0 :: tag.value) = recordBody tag := by
    rw [cstr_eq_self ht.name_nul, recordBody]
  have hlen : (cstr tag.name).length + (tagHeader tag).length + 2 + tag.value.length =
      (recordBody tag).length := by rw [cstr_eq_self ht.name_nul, length_recordBody]
  rw [tagAppend, pread_eq (Nat.zero_le _) (by norm_num), List.drop_zero, Exec.ok_bind]
  by_cases hnil : tags = []
  · subst hnil
    rw [fileBytes_nil] at hd
    rw [hd, List.take_nil, List.length_nil, if_pos rfl, pwrite_empty hm hd]
    obtain ⟨d, hd₁⟩ : ∃ d : Filedata, d.bytes = TAGS_MAGIC := ⟨⟨TAGS_MAGIC, by decide⟩, rfl⟩
    have happ : append h TAGS_MAGIC = .ok { h with filedata := d, modified := true } :=
      append_eq_ok.2 ⟨rfl, rfl, by rw [hd₁, hd, List.nil_append], rfl⟩
    rw [happ, Exec.ok_bind]
    simp only [tagValue_eq ht, Exec.ok_bind, hbody, hlen]
    exact key { h with filedata := d, modified := true } hd₁ rfl rfl
  · rw [hd, take_fileBytes hnil, if_neg (by decide), if_neg (by decide), if_neg (by simp)]
    simp only [pure_bind, tagValue_eq ht, Exec.ok_bind, hbody, hlen]
    exact key h (by rw [if_neg hnil, hd]) rfl rfl

/-- Reading a record of which some bytes are left gives all of it. -/
theorem readBody_eq {off : ℕ} {rec body : Bytes}
    (hd : (h.filedata.bytes.drop off).take (rec ++ body).length = rec ++ body)
    (hlt : (rec ++ body).length < 2 ^ 32) :
    readBody h off (rec ++ body).length rec = .ok (rec ++ body) := by
  have hlen : off + (rec ++ body).length ≤ h.filedata.bytes.length ∨ rec ++ body = [] := by
    have := congrArg List.length hd
    simp only [List.length_take, List.length_drop] at this
    by_cases hnil : rec ++ body = []
    · exact .inr hnil
    · have := List.length_pos_iff.2 hnil
      omega
  rw [readBody]
  by_cases hbody : body = []
  · subst hbody
    rw [dif_neg (by simp), List.append_nil]
    rfl
  · have hpos := List.length_pos_iff.2 hbody
    rw [List.length_append] at hlen hlt ⊢
    have hle : off + rec.length + body.length ≤ h.filedata.bytes.length := by
      rcases hlen with hle | hnil
      · omega
      · exact absurd (List.append_eq_nil_iff.1 hnil).2 hbody
    have hread : pread h body.length (off + rec.length) = .ok body := by
      rw [pread_eq (by omega) (by omega), ← List.drop_drop]
      have := congrArg (List.drop rec.length) hd
      rw [List.drop_take, List.length_append, Nat.add_sub_cancel_left, List.drop_left'] at this
      · rw [this]
      · rfl
    rw [dif_pos (by omega), Nat.add_sub_cancel_left, hread, Exec.ok_bind, dif_neg hbody, readBody,
      dif_neg (by simp)]
    rfl

/-- Parsing the record of a tag. -/
theorem parseRecord_recordBody (ht : tag.WellFormed) :
    parseRecord (recordBody tag) = .ok (stored tag) := by
  have hhdr : 0 ∉ tagHeader tag := by
    rw [tagHeader, List.mem_append, not_or]
    refine ⟨notMem_printDec (by decide) (by decide), ?_⟩
    cases tag.binary <;> decide
  have hdrop : (recordBody tag).drop (tag.name.length + 1) = tagHeader tag ++ 0 :: tag.value := by
    rw [recordBody, ← List.drop_drop, List.drop_left' rfl, List.drop_succ_cons, List.drop_zero]
  have hvalue : (tagHeader tag ++ 0 :: tag.value).drop ((tagHeader tag).length + 1) = tag.value := by
    rw [← List.drop_drop, List.drop_left' rfl, List.drop_succ_cons, List.drop_zero]
  have hscan : scanDec (tagHeader tag) =
      some (tag.timestamp, [ch ' ', if tag.binary then ch 'B' else ch 'S']) :=
    scanDec_printDec _ (by simp; decide)
  have hspace : [ch ' ', if tag.binary then ch 'B' else ch 'S'].dropWhile isSpace =
      [if tag.binary then ch 'B' else ch 'S'] := by cases tag.binary <;> decide
  simp only [parseRecord, show cstr? (recordBody tag) = some tag.name from
    cstr?_append ht.name_nul _, hdrop, cstr?_append hhdr, hscan, hspace, hvalue]
  cases hb : tag.binary with
  | true => simp [stored, hb, pure, Except.pure]
  | false =>
    have hne : ch 'S' ≠ ch 'B' := by decide
    simp [stored, hb, hne, pure, Except.pure]

/-- Reading from an offset on where the records of some tags stand. -/
theorem tagsreadFrom_eq {off : ℕ} (hoff : off ≤ h.filedata.bytes.length)
    (hd : h.filedata.bytes.drop off = tags.flatMap record) (ht : ∀ tag ∈ tags, tag.WellFormed)
    (acc : List Attrval) : tagsreadFrom h off acc = .ok (none, acc ++ tags.map stored) := by
  induction tags generalizing off acc with
  | nil =>
    have hread : pread h 4 off = .ok [] := by
      rw [pread_eq hoff (by norm_num), hd]
      rfl
    rw [tagsreadFrom]
    split
    · rename_i e he
      rw [hread] at he
      cases he
    · rename_i r hr
      obtain rfl := Except.ok.inj (hread.symm.trans hr)
      simp
  | cons tag tags ih =>
    rw [List.forall_mem_cons] at ht
    rw [List.flatMap_cons, record, List.append_assoc] at hd
    have hlen := congrArg List.length hd
    rw [List.length_drop, List.length_append, List.length_append, length_htonl] at hlen
    have hlt := h.filedata.length_lt
    have hread : pread h 4 off = .ok (htonl (recordBody tag).length) := by
      rw [pread_eq hoff (by norm_num), hd]
      exact congrArg Except.ok (List.take_left' (length_htonl _))
    have hnum := ntohl_htonl (n := (recordBody tag).length) (by omega)
    have hd₁ : h.filedata.bytes.drop (off + 4) = recordBody tag ++ tags.flatMap record := by
      rw [← List.drop_drop, hd]
      exact List.drop_left' (length_htonl _)
    have hbody : readBody h (off + 4) (recordBody tag).length [] = .ok (recordBody tag) :=
      @readBody_eq h (off + 4) [] (recordBody tag)
        (by rw [hd₁, List.nil_append, List.take_left' rfl]) (by rw [List.nil_append]; omega)
    have hd₂ : h.filedata.bytes.drop (off + 4 + (recordBody tag).length) =
        tags.flatMap record := by
      rw [← List.drop_drop, hd₁]
      exact List.drop_left' rfl
    rw [tagsreadFrom]
    split
    · rename_i e he
      rw [hread] at he
      cases he
    · rename_i r hr
      obtain rfl := Except.ok.inj (hread.symm.trans hr)
      rw [length_htonl, if_neg (by decide), if_neg (by decide), hnum, hbody]
      simp only [parseRecord_recordBody ht.1, ih (by omega) hd₂ ht.2]
      simp

/-- Reading a file of tags gives them in order; a file without a tag has no
    magic number. -/
theorem tagsread_fileBytes (hd : h.filedata.bytes = fileBytes tags)
    (ht : ∀ tag ∈ tags, tag.WellFormed) : tagsread { bhandle := h, tags := [] } =
      .ok (if tags = [] then some Errno.EIO else none,
        { bhandle := h, tags := tags.map stored }) := by
  rw [tagsread, pread_eq (Nat.zero_le _) (by norm_num), List.drop_zero, Exec.ok_bind, hd]
  by_cases hnil : tags = []
  · subst hnil
    rfl
  · have hoff : 4 ≤ h.filedata.bytes.length := by
      rw [hd, fileBytes_of_ne_nil hnil, List.length_append]
      exact Nat.le_add_right _ _
    have hdrop : h.filedata.bytes.drop 4 = tags.flatMap record := by
      rw [hd, fileBytes_of_ne_nil hnil]
      exact List.drop_left' (length_htonl _)
    rw [take_fileBytes hnil, if_neg (by decide), if_neg (by simp), if_neg hnil,
      tagsreadFrom_eq hoff hdrop ht]
    rfl

/-- A tag as it is copied out of what was read: a binary one without its value. -/
def readBack (tag : Attrval) : Attrval :=
  { stored tag with value := if tag.binary then [] else tag.value }

theorem copy_stored (ht : tag.WellFormed) : (stored tag).copy = .ok (readBack tag) := by
  cases hb : tag.binary with
  | true => simp [Attrval.copy, stored, readBack, hb]
  | false => simp [Attrval.copy, stored, readBack, hb, cstr_eq_self (ht.value_nul hb)]

theorem mapM_copy_stored (ht : ∀ tag ∈ tags, tag.WellFormed) :
    (tags.map stored).mapM Attrval.copy = .ok (tags.map readBack) := by
  induction tags with
  | nil => rfl
  | cons tag tags ih =>
    rw [List.forall_mem_cons] at ht
    rw [List.map_cons, List.mapM_cons, copy_stored ht.1, ih ht.2]
    rfl

/-- The tags of a name in a file of tags. -/
theorem tagAttr_fileBytes (hd : h.filedata.bytes = fileBytes tags)
    (ht : ∀ tag ∈ tags, tag.WellFormed) (attr : Bytes) : tagAttr { bhandle := h, tags := [] } attr =
      if tags.filter (·.name = attr) = [] then .error (.errno .ENOENT)
      else .ok ((tags.filter (·.name = attr)).map readBack) := by
  have hfilter : (tags.map stored).filter (·.name = attr) =
      (tags.filter (·.name = attr)).map stored := by
    rw [List.filter_map]
    rfl
  have hcopy : ((tags.filter (·.name = attr)).map stored).mapM Attrval.copy =
      .ok ((tags.filter (·.name = attr)).map readBack) :=
    mapM_copy_stored fun tag htag => ht tag (List.mem_of_mem_filter htag)
  rw [tagAttr]
  simp only [if_true, tagsread_fileBytes hd ht, Exec.ok_bind, pure_bind, hfilter, hcopy,
    List.map_eq_nil_iff]
  by_cases hnil : tags = []
  · subst hnil
    rfl
  · rw [if_neg hnil]
    split_ifs <;> rfl

theorem fileBytes_eq_nil : fileBytes tags = [] ↔ tags = [] := by
  refine ⟨fun h => by_contra fun ht => ?_, fun h => h ▸ fileBytes_nil⟩
  rw [fileBytes_of_ne_nil ht] at h
  exact absurd (List.append_eq_nil_iff.1 h).1 (by decide)

/-- More tags take more room. -/
theorem length_fileBytes_le (tags tags' : List Attrval) :
    (fileBytes tags).length ≤ (fileBytes (tags ++ tags')).length := by
  by_cases ht : tags = []
  · simp [ht]
  · rw [fileBytes_of_ne_nil ht, fileBytes_of_ne_nil (by simp [ht]), List.flatMap_append,
      ← List.append_assoc]
    exact (List.prefix_append _ _).length_le

/-- What tags are appended to does not matter beyond its bytes. -/
theorem fileBytes_append_congr {tags tags' : List Attrval} (h : fileBytes tags = fileBytes tags')
    (new : List Attrval) : fileBytes (tags ++ new) = fileBytes (tags' ++ new) := by
  induction new using List.reverseRecOn with
  | nil => simpa using h
  | append_singleton new tag ih =>
    have hnil : tags ++ new = [] ↔ tags' ++ new = [] := by
      rw [← fileBytes_eq_nil, ← fileBytes_eq_nil, ih]
    simp only [← List.append_assoc, fileBytes_append_singleton, ih, hnil]

/-- Appending tags one after the other to a file of tags. -/
theorem appendLoop_eq {acc : List Attrval} (hm : h.filemode % 4 ≠ 0)
    (hd : h.filedata.bytes = fileBytes acc) (ht : ∀ tag ∈ tags, tag.WellFormed) :
    appendLoop h tags = (do
      let filedata ← Filedata.ofBytes (fileBytes (acc ++ tags))
      return (none, { h with filedata, modified := h.modified || !tags.isEmpty })) := by
  induction tags generalizing h acc with
  | nil =>
    rw [List.append_nil, ← hd, Filedata.ofBytes_of_lt h.filedata.length_lt]
    simp [appendLoop, pure, Except.pure]
  | cons tag tags ih =>
    rw [List.forall_mem_cons] at ht
    rw [appendLoop, tagAppend_eq hm hd ht.1]
    by_cases hlt : (fileBytes (acc ++ [tag])).length < 2 ^ 31
    · rw [Filedata.ofBytes_of_lt hlt, Exec.ok_bind]
      have hih := @ih { h with filedata := ⟨_, hlt⟩, modified := true } (acc ++ [tag]) hm rfl ht.2
      simpa [pure, Except.pure] using hih
    · have hle := length_fileBytes_le (acc ++ [tag]) tags
      rw [List.append_assoc, List.singleton_append] at hle
      rw [Filedata.ofBytes_of_not_lt hlt, Filedata.ofBytes_of_not_lt (by omega)]
      rfl

end FilesOfTags

/-! ## Tags come back -/

/-- A tag that was read is the one that was appended: for a binary one, with its
    size. -/
structure SameTag (tag out : Attrval) : Prop where
  name : out.name = tag.name
  timestamp : out.timestamp = tag.timestamp
  binary : out.binary = tag.binary
  value : out.value = tag.value
  size : tag.binary = true → out.size = tag.size

/-- Tags appended to an empty file come back: for every name the tags of that
    name, in order, and an error when there is none. -/
def TagsRoundTrip (tags : List Attrval) : Prop :=
  ∀ h : Fhandle, h.filemode % 4 ≠ 0 → h.filedata = .empty → ∃ h', appendLoop h tags = .ok (none, h') ∧
    ∀ attr, (tagAttr { bhandle := h', tags := [] } attr = .error (.errno .ENOENT) ↔
        ∀ tag ∈ tags, tag.name ≠ attr) ∧
      ((∃ tag ∈ tags, tag.name = attr) → ∃ out, tagAttr { bhandle := h', tags := [] } attr = .ok out ∧
        List.Forall₂ SameTag (tags.filter (·.name = attr)) out)

/-- Copying what was read gives the tag back when it is no binary one with a
    value. -/
theorem sameTag_readBack {tag : Attrval} (ht : tag.WellFormed) :
    SameTag tag (readBack tag) ↔ (tag.binary = true → tag.value = []) := by
  constructor
  · intro h hb
    have := h.value
    rw [readBack, if_pos hb] at this
    exact this.symm
  · intro h
    refine ⟨rfl, rfl, rfl, ?_, fun hb => ?_⟩
    · cases hb : tag.binary with
      | true => simp [readBack, hb, h hb]
      | false => simp [readBack, hb]
    · change 0 = tag.size
      rw [← ht.value_size hb, h hb, List.length_nil]

theorem forall₂_map_right {α β : Type} {R : α → β → Prop} {f : α → β} (l : List α) :
    List.Forall₂ R l (l.map f) ↔ ∀ a ∈ l, R a (f a) := by
  rw [List.forall₂_map_right_iff, List.forall₂_same]

/-- Appended tags come back exactly when no binary one has a value, and the
    size of the file is an `int`. -/
theorem tagsRoundTrip_iff {tags : List Attrval} (ht : ∀ tag ∈ tags, tag.WellFormed) :
    TagsRoundTrip tags ↔ (∀ tag ∈ tags, tag.binary = true → tag.value = []) ∧
      (fileBytes tags).length < 2 ^ 31 := by
  have happ : ∀ {h h' : Fhandle}, h.filemode % 4 ≠ 0 → h.filedata = .empty →
      (appendLoop h tags = .ok (none, h') ↔ ∃ filedata : Filedata, filedata.bytes = fileBytes tags ∧
        { h with filedata, modified := h.modified || !tags.isEmpty } = h') := by
    intro h h' hm hd
    have hbytes : h.filedata.bytes = fileBytes [] := by
      rw [hd]
      rfl
    rw [appendLoop_eq hm hbytes ht, List.nil_append]
    simp [pure, Except.pure]
  constructor
  · intro hrt
    obtain ⟨h', happ', hread⟩ := hrt ⟨[], O_RDWR, .empty, false⟩ (by decide) rfl
    obtain ⟨filedata, hbytes, rfl⟩ := (happ (by decide) rfl).1 happ'
    refine ⟨fun tag htag => ?_, hbytes ▸ filedata.length_lt⟩
    obtain ⟨out, hout, hsame⟩ := (hread tag.name).2 ⟨tag, htag, rfl⟩
    have hmem : tag ∈ tags.filter (·.name = tag.name) := by simpa using htag
    rw [tagAttr_fileBytes hbytes ht, if_neg (List.ne_nil_of_mem hmem), Except.ok.injEq] at hout
    rw [← hout, forall₂_map_right] at hsame
    exact (sameTag_readBack (ht tag htag)).1 (hsame tag hmem)
  · rintro ⟨hbin, hlt⟩ h hm hd
    refine ⟨_, (happ hm hd).2 ⟨⟨fileBytes tags, hlt⟩, rfl, rfl⟩, fun attr => ?_⟩
    have hnil : tags.filter (·.name = attr) = [] ↔ ∀ tag ∈ tags, tag.name ≠ attr := by
      simp [List.filter_eq_nil_iff]
    rw [tagAttr_fileBytes rfl ht, ← hnil]
    refine ⟨?_, fun ⟨tag, htag, hname⟩ => ?_⟩
    · split_ifs with hn
      · exact iff_of_true rfl hn
      · exact iff_of_false (by simp) hn
    have hmem : tag ∈ tags.filter (·.name = attr) := by simpa using ⟨htag, hname⟩
    refine ⟨_, if_neg (List.ne_nil_of_mem hmem), (forall₂_map_right _).2 fun tag htag => ?_⟩
    have htag := List.mem_of_mem_filter htag
    exact (sameTag_readBack (ht tag htag)).2 (hbin tag htag)

/-- A tag of the name `tag` with a given value. -/
def sampleTag (binary : Bool) (value : Bytes) : Attrval where
  name := ascii "tag"
  value := value
  binary := binary
  size := value.length
  origin := .user
  originDetail := none
  timestamp := 1

theorem sampleTag_wellFormed {binary : Bool} {value : Bytes} (hv : 0 ∉ value) :
    (sampleTag binary value).WellFormed where
  name_nul := show 0 ∉ ascii "tag" by decide
  value_nul _ := hv
  value_size _ := rfl
  detail_nul _ h := absurd h (by simp [sampleTag])

/-- Two string tags and an empty binary one come back. -/
theorem tagsRoundTrip_sampleTags : TagsRoundTrip
    [sampleTag false (ascii "a"), sampleTag false (ascii "b"), sampleTag true []] :=
  (tagsRoundTrip_iff (by
    simp only [List.forall_mem_cons]
    exact ⟨sampleTag_wellFormed (by decide), sampleTag_wellFormed (by decide),
      sampleTag_wellFormed (by decide), by simp⟩)).2 (by decide)

/-- A binary tag of one byte does not: it is read without a size, and copied
    without its byte. -/
theorem not_tagsRoundTrip_binary :
    (∀ tag ∈ [sampleTag true (ascii "a")], tag.WellFormed) ∧
      ¬TagsRoundTrip [sampleTag true (ascii "a")] := by
  have ht : ∀ tag ∈ [sampleTag true (ascii "a")], tag.WellFormed := by
    rw [List.forall_mem_singleton]
    exact sampleTag_wellFormed (by decide)
  refine ⟨ht, fun hrt => ?_⟩
  obtain ⟨h', happ, hread⟩ := hrt ⟨[], O_RDWR, .empty, false⟩ (by decide) rfl
  rw [appendLoop_eq (h := ⟨[], O_RDWR, .empty, false⟩) (by decide) fileBytes_nil.symm ht,
    List.nil_append, Filedata.ofBytes_of_lt (by decide)] at happ
  obtain ⟨out, hout, hsame⟩ := (hread (ascii "tag")).2 ⟨_, List.mem_singleton_self _, rfl⟩
  obtain rfl : _ = h' := (Prod.mk.inj (Except.ok.inj happ)).2
  rw [tagAttr_fileBytes rfl ht] at hout
  obtain rfl := Except.ok.inj hout
  have hvalue := (List.forall₂_cons.1 hsame).1.value
  exact absurd hvalue (by decide)

/-! ## Tags are kept -/

section Kept

variable {config : Config} {jobs : List JobRow} {disk : Disk} {jobid fname : Bytes}
  {acc tags : List Attrval}

/-- Calls of `appendTags` one after the other. -/
def appendCalls (config : Config) (jobs : List JobRow) (disk : Disk) (jobid : Bytes)
    (calls : List (List Attrval)) : Exec Disk :=
  calls.foldlM (fun disk tags => Prod.snd <$> appendTags config jobs disk jobid tags) disk

/-- The tags of a name that reading returns: none when it fails. -/
def tagValues (config : Config) (jobs : List JobRow) (disk : Disk) (jobid attr : Bytes) :
    List Attrval :=
  match readTag config jobs disk jobid attr with
  | .ok attrval => attrval
  | .error _ => []

/-- What opening a file of tags for appending returns, be the file there or
    not. -/
theorem openFile_tags (hf : getJobFname config jobs jobid (ascii "tags") none = .ok fname)
    (hd : (disk fname).getD [] = fileBytes acc) {disk₁ : Disk} {h : Fhandle}
    (hopen : openFile config jobs disk jobid (ascii "tags") none (O_RDWR ||| O_CREAT) =
      .ok (disk₁, h)) :
    h.filename = fname ∧ h.filemode = (O_RDWR ||| O_CREAT) ∧ h.filedata.bytes = fileBytes acc ∧
      h.modified = false ∧ (disk₁ fname).getD [] = fileBytes acc := by
  cases hc : disk fname with
  | some contents =>
    obtain ⟨filedata, hbytes, hr⟩ := (openFile_some hf hc (by decide)).1 hopen
    obtain ⟨rfl, rfl⟩ := Prod.mk.inj hr
    rw [hc, Option.getD_some] at hd
    exact ⟨rfl, rfl, hbytes.trans hd, rfl, by rw [hc]; exact hd⟩
  | none =>
    rw [hc, Option.getD_none] at hd
    obtain ⟨rfl, rfl⟩ := Prod.mk.inj (Except.ok.inj ((openFile_create hf hc).symm.trans hopen))
    exact ⟨rfl, rfl, hd, rfl, by simpa using hd⟩

/-- Opening a file of tags for appending succeeds when its size is an `int`. -/
theorem openFile_tags_ok (hf : getJobFname config jobs jobid (ascii "tags") none = .ok fname)
    (hd : (disk fname).getD [] = fileBytes acc) (hlt : (fileBytes acc).length < 2 ^ 31) :
    ∃ disk₁ h, openFile config jobs disk jobid (ascii "tags") none (O_RDWR ||| O_CREAT) =
      .ok (disk₁, h) := by
  cases hc : disk fname with
  | some contents =>
    rw [hc, Option.getD_some] at hd
    exact ⟨_, _, (openFile_some hf hc (by decide)).2 ⟨⟨contents, by rw [hd]; exact hlt⟩, rfl, rfl⟩⟩
  | none => exact ⟨_, _, openFile_create hf hc⟩

/-- Appending to a file of tags that is there, or is empty or missing, gives the
    file of the tags and the new ones. -/
theorem appendTags_eq (hf : getJobFname config jobs jobid (ascii "tags") none = .ok fname)
    (hd : (disk fname).getD [] = fileBytes acc) (ht : ∀ tag ∈ tags, tag.WellFormed)
    (hlt : (fileBytes (acc ++ tags)).length < 2 ^ 31) :
    ∃ disk', appendTags config jobs disk jobid tags = .ok (none, disk') ∧
      (disk' fname).getD [] = fileBytes (acc ++ tags) := by
  have hle := length_fileBytes_le acc tags
  obtain ⟨disk₁, h, hopen⟩ := openFile_tags_ok hf hd (by omega)
  obtain ⟨hname, hmode, hbytes, hmod, hdisk⟩ := openFile_tags hf hd hopen
  have happ := appendLoop_eq (by rw [hmode]; decide) hbytes ht
  rw [Filedata.ofBytes_of_lt hlt, Exec.ok_bind, hmod, Bool.false_or] at happ
  refine ⟨_, by rw [appendTags, hopen]; simp only [happ]; rfl, ?_⟩
  cases tags with
  | nil => simpa [closeFile] using hdisk
  | cons tag tags => simp [closeFile, hname]

/-- The tags of a name that are read from a file of tags. -/
theorem tagValues_eq (hf : getJobFname config jobs jobid (ascii "tags") none = .ok fname)
    (hd : (disk fname).getD [] = fileBytes acc) (ht : ∀ tag ∈ acc, tag.WellFormed)
    (hlt : (fileBytes acc).length < 2 ^ 31) (attr : Bytes) :
    tagValues config jobs disk jobid attr = (acc.filter (·.name = attr)).map readBack := by
  cases hc : disk fname with
  | some contents =>
    rw [hc, Option.getD_some] at hd
    have hopen : openFile config jobs disk jobid (ascii "tags") none O_RDONLY =
        .ok (disk, ⟨fname, O_RDONLY, ⟨contents, by rw [hd]; exact hlt⟩, false⟩) :=
      (openFile_some hf hc (by decide)).2 ⟨_, rfl, rfl⟩
    rw [tagValues, readTag, hopen]
    simp only [tagAttr_fileBytes (h := ⟨fname, O_RDONLY, ⟨contents, _⟩, false⟩) hd ht]
    by_cases hnil : acc.filter (·.name = attr) = []
    · simp [hnil]
    · simp [hnil]
  | none =>
    rw [hc, Option.getD_none, eq_comm, fileBytes_eq_nil] at hd
    rw [tagValues, readTag, openFile_none hf hc, hd]
    rfl

theorem appendCalls_eq (hf : getJobFname config jobs jobid (ascii "tags") none = .ok fname)
    (hd : (disk fname).getD [] = fileBytes acc) {calls : List (List Attrval)}
    (ht : ∀ tags ∈ calls, ∀ tag ∈ tags, tag.WellFormed)
    (hlt : (fileBytes (acc ++ calls.flatten)).length < 2 ^ 31) :
    ∃ disk', appendCalls config jobs disk jobid calls = .ok disk' ∧
      (disk' fname).getD [] = fileBytes (acc ++ calls.flatten) := by
  induction calls generalizing acc disk with
  | nil => exact ⟨disk, rfl, by simpa using hd⟩
  | cons tags calls ih =>
    rw [List.forall_mem_cons] at ht
    rw [List.flatten_cons, ← List.append_assoc] at hlt ⊢
    have hle := length_fileBytes_le (acc ++ tags) calls.flatten
    obtain ⟨disk₁, happ, hd₁⟩ := appendTags_eq hf hd ht.1 (by omega)
    obtain ⟨disk₂, hcalls, hd₂⟩ := ih hd₁ ht.2 hlt
    refine ⟨disk₂, ?_, hd₂⟩
    rw [appendCalls, List.foldlM_cons, happ]
    exact hcalls

/-- Starting from a missing file, every call of `appendTags` keeps the values of
    every name that were read before, and adds one for each tag it appends. -/
theorem tagValues_appendTags
    (hf : getJobFname config jobs jobid (ascii "tags") none = .ok fname) (hd : disk fname = none)
    {calls : List (List Attrval)} (hc : ∀ call ∈ calls, ∀ tag ∈ call, tag.WellFormed)
    (ht : ∀ tag ∈ tags, tag.WellFormed)
    (hlt : (fileBytes (calls.flatten ++ tags)).length < 2 ^ 31) (attr : Bytes) :
    ∃ disk₁ disk₂, appendCalls config jobs disk jobid calls = .ok disk₁ ∧
      appendTags config jobs disk₁ jobid tags = .ok (none, disk₂) ∧
      ∃ new, tagValues config jobs disk₂ jobid attr = tagValues config jobs disk₁ jobid attr ++ new ∧
        List.Forall₂ (fun tag out => out = readBack tag) (tags.filter (·.name = attr)) new := by
  have hle := length_fileBytes_le calls.flatten tags
  have hd₀ : (disk fname).getD [] = fileBytes [] := by
    rw [hd]
    rfl
  obtain ⟨disk₁, hcalls, hd₁⟩ := appendCalls_eq hf hd₀ hc (by
    rw [List.nil_append]
    omega)
  rw [List.nil_append] at hd₁
  obtain ⟨disk₂, happ, hd₂⟩ := appendTags_eq hf hd₁ ht hlt
  have hall : ∀ tag ∈ calls.flatten, tag.WellFormed := fun tag htag => by
    obtain ⟨call, hcall, htag⟩ := List.mem_flatten.1 htag
    exact hc call hcall tag htag
  have hall' : ∀ tag ∈ calls.flatten ++ tags, tag.WellFormed := fun tag htag =>
    (List.mem_append.1 htag).elim (hall tag) (ht tag)
  refine ⟨disk₁, disk₂, hcalls, happ, (tags.filter (·.name = attr)).map readBack, ?_, ?_⟩
  · rw [tagValues_eq hf hd₁ hall (by omega), tagValues_eq hf hd₂ hall' hlt, List.filter_append,
      List.map_append]
  · rw [forall₂_map_right]
    exact fun _ _ => rfl

/-- A call that appends a tag behind one of an earlier call. -/
theorem tagValues_appendTags_sample : ∃ disk₁ disk₂,
    appendCalls sampleConfig [sampleJob] (fun _ => none) sampleJob.dgJobid
      [[sampleTag false (ascii "a")]] = .ok disk₁ ∧
    appendTags sampleConfig [sampleJob] disk₁ sampleJob.dgJobid [sampleTag true (ascii "b")] =
      .ok (none, disk₂) ∧
    ∃ new, tagValues sampleConfig [sampleJob] disk₂ sampleJob.dgJobid (ascii "tag") =
        tagValues sampleConfig [sampleJob] disk₁ sampleJob.dgJobid (ascii "tag") ++ new ∧
      List.Forall₂ (fun tag out => out = readBack tag)
        ([sampleTag true (ascii "b")].filter (·.name = ascii "tag")) new :=
  have hf : getJobFname sampleConfig [sampleJob] sampleJob.dgJobid (ascii "tags") none =
      .ok (ascii "/jp/data/0123/0/abcdefghij/tags") := rfl
  tagValues_appendTags hf rfl
    (by
      simp only [List.forall_mem_singleton]
      exact sampleTag_wellFormed (by decide))
    (by
      rw [List.forall_mem_singleton]
      exact sampleTag_wellFormed (by decide)) (by decide) _

end Kept

/-! ## One by one -/

section OneByOne

variable {config : Config} {jobs : List JobRow} {disk disk₁ disk₂ : Disk} {jobid buf : Bytes}
  {h h' : Fhandle} {tag : Attrval} {tags : List Attrval} {ret : Ret}

/-- Writing looks at whether the file is modified only to keep it. -/
theorem pwrite_modified (b : Bool) (off : ℕ) : ∃ b', pwrite { h with modified := b } buf off =
    (pwrite h buf off).map ({ · with modified := b' }) := by
  by_cases hm : h.filemode % 4 = 0
  · exact ⟨b, by simp [pwrite, hm, Except.map]⟩
  · refine ⟨true, ?_⟩
    simp only [pwrite, if_neg hm]
    split_ifs
    · cases Filedata.ofBytes (h.filedata.bytes.take off ++ buf ++
        h.filedata.bytes.drop (off + buf.length)) <;> rfl
    · rfl

theorem pwrite_frame {off : ℕ} (hw : pwrite h buf off = .ok h') :
    h'.filename = h.filename ∧ h'.filemode = h.filemode := by
  unfold pwrite at hw
  split_ifs at hw
  · obtain rfl := Except.ok.inj hw
    exact ⟨rfl, rfl⟩
  · obtain ⟨d, -, hw⟩ := Exec.bind_eq_ok.1 hw
    obtain rfl := Except.ok.inj hw
    exact ⟨rfl, rfl⟩

/-- Appending does not look at whether the file is modified: it is afterwards. -/
theorem tagAppend_modified (b : Bool) : tagAppend { h with modified := b } tag = tagAppend h tag := by
  obtain ⟨b', hp⟩ := @pwrite_modified TAGS_MAGIC h b 0
  have hr : pread { h with modified := b } 4 0 = pread h 4 0 := rfl
  unfold tagAppend
  rw [hr]
  cases pread h 4 0 with
  | error e => rfl
  | ok magic =>
    simp only [Exec.ok_bind]
    split_ifs
    · rw [hp]
      cases pwrite h TAGS_MAGIC 0 <;> rfl
    · rfl
    · rfl
    · rfl

theorem tagAppend_frame (ha : tagAppend h tag = .ok h') :
    h'.filename = h.filename ∧ h'.filemode = h.filemode ∧ h'.modified = true := by
  -- the record is appended to the file itself, or to the one with the magic number
  have hrecord : ∀ {h₁ : Fhandle} {len : Bytes → ℕ} {rec : Bytes → Bytes},
      h₁.filename = h.filename → h₁.filemode = h.filemode →
      (tagValue tag >>= fun value => if len value % 2 ^ 32 < len value then
        (throw .fault : Exec Unit) >>= fun _ => append h₁ (rec value)
          else append h₁ (rec value)) = .ok h' →
            h'.filename = h.filename ∧ h'.filemode = h.filemode ∧ h'.modified = true := by
    intro h₁ len rec hname hmode hr
    obtain ⟨value, -, hr⟩ := Exec.bind_eq_ok.1 hr
    split_ifs at hr
    · cases hr
    · obtain ⟨hn, hm, -, hmod⟩ := append_eq_ok.1 hr
      exact ⟨hn.trans hname, hm.trans hmode, hmod⟩
  unfold tagAppend at ha
  obtain ⟨magic, -, ha⟩ := Exec.bind_eq_ok.1 ha
  dsimp only at ha
  split_ifs at ha
  · obtain ⟨h₁, hw, ha⟩ := Exec.bind_eq_ok.1 ha
    obtain ⟨hname, hmode⟩ := pwrite_frame hw
    exact hrecord hname hmode ha
  · cases ha
  · cases ha
  · exact hrecord rfl rfl ha

theorem appendLoop_frame (hm : h.modified = true) (ha : appendLoop h tags = .ok (ret, h')) :
    h'.filename = h.filename ∧ h'.modified = true := by
  induction tags generalizing h with
  | nil =>
    obtain ⟨-, rfl⟩ := Prod.mk.inj (Except.ok.inj ha)
    exact ⟨rfl, hm⟩
  | cons tag tags ih =>
    unfold appendLoop at ha
    split at ha
    · rename_i h₁ htag
      obtain ⟨hname, -, hmod⟩ := tagAppend_frame htag
      obtain ⟨hn, hmod'⟩ := ih hmod ha
      exact ⟨hn.trans hname, hmod'⟩
    · obtain ⟨-, rfl⟩ := Prod.mk.inj (Except.ok.inj ha)
      exact ⟨rfl, hm⟩
    · cases ha

/-- What opening a file for appending gives, whatever is in it. -/
theorem openFile_append (ho : openFile config jobs disk jobid (ascii "tags") none
    (O_RDWR ||| O_CREAT) = .ok (disk₁, h)) :
    getJobFname config jobs jobid (ascii "tags") none = .ok h.filename ∧
      h.filemode = (O_RDWR ||| O_CREAT) ∧ h.modified = false ∧
      disk₁ h.filename = some h.filedata.bytes := by
  obtain ⟨fname, hf, -⟩ := Exec.bind_eq_ok.1 ho
  cases hd : disk fname with
  | some contents =>
    obtain ⟨d, hbytes, he⟩ := (openFile_some hf hd (by decide)).1 ho
    obtain ⟨rfl, rfl⟩ := Prod.mk.inj he
    exact ⟨hf, rfl, rfl, hd.trans (congrArg some hbytes.symm)⟩
  | none =>
    obtain ⟨rfl, rfl⟩ := Prod.mk.inj (Except.ok.inj ((openFile_create hf hd).symm.trans ho))
    exact ⟨hf, rfl, rfl, Function.update_self ..⟩

/-- Appending a tag writes the file. -/
theorem appendTags_singleton (ha : appendTags config jobs disk jobid [tag] = .ok (none, disk₁)) :
    ∃ disk₀ h h', openFile config jobs disk jobid (ascii "tags") none (O_RDWR ||| O_CREAT) =
        .ok (disk₀, h) ∧ tagAppend h tag = .ok h' ∧
      disk₁ = Function.update disk₀ h.filename (some h'.filedata.bytes) := by
  unfold appendTags at ha
  split at ha
  · cases ha
  · cases ha
  · rename_i disk₀ h ho
    obtain ⟨⟨ret, h'⟩, hloop, ha⟩ := Exec.bind_eq_ok.1 ha
    obtain ⟨rfl, rfl⟩ := Prod.mk.inj (Except.ok.inj ha)
    unfold appendLoop at hloop
    split at hloop
    · rename_i h₁ htag
      obtain ⟨-, rfl⟩ := Prod.mk.inj (Except.ok.inj hloop)
      obtain ⟨hname, -, hmod⟩ := tagAppend_frame htag
      exact ⟨disk₀, h, h₁, ho, htag, by rw [closeFile, if_pos hmod, hname]⟩
    · cases hloop
    · cases hloop

/-- Appending tags at once does what appending them one after the other does. -/
theorem appendTags_cons (h₁ : appendTags config jobs disk jobid [tag] = .ok (none, disk₁))
    (h₂ : appendTags config jobs disk₁ jobid tags = .ok (none, disk₂)) :
    appendTags config jobs disk jobid (tag :: tags) = .ok (none, disk₂) := by
  obtain ⟨disk₀, h, h', ho, htag, rfl⟩ := appendTags_singleton h₁
  obtain ⟨hf, hmode, -, -⟩ := openFile_append ho
  obtain ⟨hname', hmode', hmod'⟩ := tagAppend_frame htag
  -- the file is opened again as it was closed
  have hopen : openFile config jobs
      (Function.update disk₀ h.filename (some h'.filedata.bytes)) jobid (ascii "tags") none
      (O_RDWR ||| O_CREAT) = .ok (Function.update disk₀ h.filename (some h'.filedata.bytes),
        { h' with modified := false }) := by
    refine (openFile_some hf (Function.update_self ..) (by decide)).2 ⟨h'.filedata, rfl, ?_⟩
    rw [← hname', ← hmode, ← hmode']
  have hloop : appendLoop h (tag :: tags) = appendLoop h' tags := by rw [appendLoop, htag]
  unfold appendTags at h₂ ⊢
  rw [hopen] at h₂
  rw [ho]
  dsimp only at h₂ ⊢
  rw [hloop]
  cases tags with
  | nil =>
    obtain ⟨-, rfl⟩ := Prod.mk.inj (Except.ok.inj h₂)
    have hclose : closeFile disk₀ h' =
        Function.update disk₀ h.filename (some h'.filedata.bytes) := by
      rw [closeFile, if_pos hmod', hname']
    exact congrArg (fun d => Except.ok (none, d)) hclose
  | cons tag' tags =>
    obtain ⟨⟨ret, g⟩, hg, h₂⟩ := Exec.bind_eq_ok.1 h₂
    obtain ⟨rfl, rfl⟩ := Prod.mk.inj (Except.ok.inj h₂)
    have hg : appendLoop h' (tag' :: tags) = .ok (none, g) := by
      rw [appendLoop, tagAppend_modified] at hg
      rw [appendLoop]
      cases ht : tagAppend h' tag' with
      | ok h₁ => rwa [ht] at hg
      | error e =>
        rw [ht] at hg
        cases e <;> cases hg
    obtain ⟨hname, hmod⟩ := appendLoop_frame hmod' hg
    rw [hg, Exec.ok_bind, closeFile, closeFile, if_pos hmod, if_pos hmod, hname, hname',
      Function.update_idem]
    rfl

end OneByOne

end JobProvenance
