import JobProvenance.Primary.Tags

/-!
# Reading any file of tags

What the reader of tags makes of a file that its writer need not have written. It
goes from record to record by their lengths, and trusts them: of a record that is
longer than the rest of the file it reads for ever, and the two strings in front of
the value it looks for also behind the record.

* `Scannable`: the bytes from which records are read up to an end;
* `HoldsTags`: the tags of a file, and what is behind them;
* `endsWell_iff`: reading ends, with all tags or an error and those in front of it,
  exactly when the bytes behind the magic number are scannable, or there is none.
-/

namespace JobProvenance

/-! ## Records -/

/-- The kind of a tag. -/
def IsTagKind (kind : UInt8) : Prop := kind = ch 'B' ∨ kind = ch 'S'

instance (kind : UInt8) : Decidable (IsTagKind kind) :=
  inferInstanceAs (Decidable (kind = ch 'B' ∨ kind = ch 'S'))

/-- A record without its length: its two strings end inside it, and the second has a
    number and a letter. -/
structure BodyOf (body name hdr value : Bytes) (timestamp : ℤ) (kind : UInt8) : Prop where
  bytes : body = name ++ 0 :: (hdr ++ 0 :: value)
  name_nul : 0 ∉ name
  hdr_nul : 0 ∉ hdr
  fields : ∃ rest tail, scanDec hdr = some (timestamp, rest) ∧ rest.dropWhile isSpace = kind :: tail

/-- The tag of a record. -/
def tagOf (name value : Bytes) (timestamp : ℤ) (kind : UInt8) : Attrval where
  name := name
  value := value
  binary := kind == ch 'B'
  size := 0
  origin := .user
  originDetail := none
  timestamp := timestamp

/-- The records of a file up to one of an unknown kind, or to the end, where less is left
    than a length: each is complete. -/
inductive Scannable : Bytes → Prop
  | ends {rest : Bytes} : rest.length < 4 → Scannable rest
  | record {size body rest name hdr value : Bytes} {timestamp : ℤ} {kind : UInt8} :
    size.length = 4 → ntohl size = body.length → BodyOf body name hdr value timestamp kind →
    (IsTagKind kind → Scannable rest) → Scannable (size ++ (body ++ rest))

/-- A record, and its tag. -/
def IsRecord (bytes : Bytes) (tag : Attrval) : Prop :=
  ∃ size body name hdr value timestamp kind, bytes = size ++ body ∧ size.length = 4 ∧
    ntohl size = body.length ∧ BodyOf body name hdr value timestamp kind ∧ IsTagKind kind ∧
    tag = tagOf name value timestamp kind

/-- The tags of the records a file starts with, and what is behind these. -/
def HoldsTags (content : Bytes) (tags : List Attrval) (rest : Bytes) : Prop :=
  ∃ records, content = TAGS_MAGIC ++ (records.flatten ++ rest) ∧ List.Forall₂ IsRecord records tags

/-- Reading a file ends: with all of its tags, or with an error and either no tags or
    those of the records in front of it. -/
def EndsWell (h : Fhandle) : Prop :=
  ∃ ret tags, tagsread { bhandle := h, tags := [] } = .ok (ret, { bhandle := h, tags }) ∧
    (ret = none → HoldsTags h.filedata.bytes tags []) ∧
    (ret ≠ none → tags = [] ∨ ∃ rest, HoldsTags h.filedata.bytes tags rest)

section Records

variable {body name hdr value name' hdr' value' size rest : Bytes} {timestamp timestamp' : ℤ}
  {kind kind' : UInt8}

/-- The fields of a record are found in one way only. -/
theorem BodyOf.kind_eq (h : BodyOf body name hdr value timestamp kind)
    (h' : BodyOf body name' hdr' value' timestamp' kind') : kind = kind' := by
  obtain ⟨rfl, hrest⟩ := append_cons_inj h.name_nul h'.name_nul (h.bytes.symm.trans h'.bytes)
  obtain ⟨rfl, -⟩ := append_cons_inj h.hdr_nul h'.hdr_nul hrest
  obtain ⟨rest, tail, hscan, hdrop⟩ := h.fields
  obtain ⟨rest', tail', hscan', hdrop'⟩ := h'.fields
  obtain ⟨-, rfl⟩ := Prod.mk.inj (Option.some.inj (hscan.symm.trans hscan'))
  exact (List.cons.inj (hdrop.symm.trans hdrop')).1

theorem parseRecord_bodyOf (h : BodyOf body name hdr value timestamp kind) :
    parseRecord body = if IsTagKind kind then .ok (tagOf name value timestamp kind)
      else .error (.errno .EINVAL) := by
  obtain ⟨rest, tail, hscan, hdrop⟩ := h.fields
  have hname : body.drop (name.length + 1) = hdr ++ 0 :: value := by
    rw [h.bytes, ← List.drop_drop, List.drop_left' rfl, List.drop_succ_cons, List.drop_zero]
  have hvalue : (hdr ++ 0 :: value).drop (hdr.length + 1) = value := by
    rw [← List.drop_drop, List.drop_left' rfl, List.drop_succ_cons, List.drop_zero]
  have hcstr : cstr? body = some name := h.bytes ▸ cstr?_append h.name_nul _
  simp only [parseRecord, hcstr, hname, cstr?_append h.hdr_nul, hscan, hdrop, hvalue]
  rfl

/-- A record without such fields is not parsed. -/
theorem exists_bodyOf (body : Bytes) :
    (∃ name hdr value timestamp kind, BodyOf body name hdr value timestamp kind) ∨
      parseRecord body = .error .fault := by
  cases hname : cstr? body with
  | none =>
    right
    simp only [parseRecord, hname]
    rfl
  | some name =>
    obtain ⟨hn, rp, rfl⟩ := exists_of_cstr? hname
    have hrp : (name ++ 0 :: rp).drop (name.length + 1) = rp := by
      rw [← List.drop_drop, List.drop_left' rfl, List.drop_succ_cons, List.drop_zero]
    cases hhdr : cstr? rp with
    | none =>
      right
      simp only [parseRecord, hname, hrp, hhdr]
      rfl
    | some hdr =>
      obtain ⟨hh, value, rfl⟩ := exists_of_cstr? hhdr
      cases hscan : scanDec hdr with
      | none =>
        right
        simp only [parseRecord, hname, hrp, hhdr, hscan]
        rfl
      | some r =>
        cases hdrop : r.2.dropWhile isSpace with
        | nil =>
          right
          simp only [parseRecord, hname, hrp, hhdr, hscan, hdrop]
          rfl
        | cons kind tail =>
          exact .inl ⟨name, hdr, value, r.1, kind, rfl, hn, hh, r.2, tail, hscan, hdrop⟩

/-- A record that is scanned is complete, and has its fields. -/
theorem Scannable.exists_record (h : Scannable rest) (hlen : 4 ≤ rest.length) :
    ntohl (rest.take 4) ≤ (rest.drop 4).length ∧ ∃ name hdr value timestamp kind,
      BodyOf ((rest.drop 4).take (ntohl (rest.take 4))) name hdr value timestamp kind ∧
        (IsTagKind kind → Scannable ((rest.drop 4).drop (ntohl (rest.take 4)))) := by
  cases h with
  | ends hlt => omega
  | record hsize hbody hfields hrest =>
    rw [List.take_left' hsize, List.drop_left' hsize, hbody, List.take_left' rfl,
      List.drop_left' rfl]
    exact ⟨by rw [List.length_append]; omega, _, _, _, _, _, hfields, hrest⟩

end Records

/-! ## Reading -/

section Reading

variable {h : Fhandle} {off rlen : ℕ} {r : Bytes} {tags : List Attrval}

theorem tagsreadFrom_of_pread (hread : pread h 4 off = .ok r) (tags : List Attrval) :
    tagsreadFrom h off tags = if r.length = 0 then .ok (none, tags)
      else if r.length ≠ 4 then .ok (some Errno.EIO, tags)
      else
        match readBody h (off + 4) (ntohl r) [] with
        | .error e => .error e
        | .ok rec =>
          match parseRecord rec with
          | .error (.errno e) => .ok (some e, [])
          | .error e => .error e
          | .ok tag => tagsreadFrom h (off + 4 + ntohl r) (tags ++ [tag]) := by
  rw [tagsreadFrom]
  split
  · rename_i e he
    rw [hread] at he
    cases he
  · rename_i r' hr
    obtain rfl := Except.ok.inj (hread.symm.trans hr)
    rfl

/-- A record that is longer than the rest of the file is read for ever: when all of the rest
    is read, nothing more is. -/
theorem readBody_hang (hoff : off ≤ h.filedata.bytes.length) (hrlen : rlen < 2 ^ 32)
    (hlt : h.filedata.bytes.length - off < rlen) : readBody h off rlen [] = .error .hang := by
  have hend : ∀ rec : Bytes, off + rec.length = h.filedata.bytes.length →
      readBody h off rlen rec = .error .hang := by
    intro rec hrec
    have hnil : pread h (rlen - rec.length) (off + rec.length) = .ok [] := by
      rw [pread_eq hrec.le (by omega), hrec, List.drop_length, List.take_nil]
    rw [readBody, dif_pos (by omega), hnil, Exec.ok_bind]
    rfl
  by_cases hall : off = h.filedata.bytes.length
  · exact hend [] hall
  · have hrest : pread h rlen off = .ok (h.filedata.bytes.drop off) := by
      rw [pread_eq hoff (by omega), List.take_of_length_le (by rw [List.length_drop]; omega)]
    have hne : h.filedata.bytes.drop off ≠ [] := by
      rw [Ne, List.drop_eq_nil_iff]
      omega
    rw [readBody, dif_pos (by rw [List.length_nil]; omega), List.length_nil, Nat.sub_zero,
      Nat.add_zero, hrest, Exec.ok_bind, dif_neg hne, List.nil_append]
    exact hend _ (by rw [List.length_drop]; omega)

/-- What the reader does at an offset: it ends where less is left than a length, it reads a
    record and goes on behind it or gives up on account of its kind, or what is left is
    not scannable. -/
theorem tagsreadFrom_step (hoff : off ≤ h.filedata.bytes.length) (tags : List Attrval) :
    ((h.filedata.bytes.drop off).length < 4 ∧ tagsreadFrom h off tags =
      .ok (if h.filedata.bytes.drop off = [] then none else some Errno.EIO, tags)) ∨
    (∃ size body rest name hdr value timestamp kind,
      h.filedata.bytes.drop off = size ++ (body ++ rest) ∧ size.length = 4 ∧
      ntohl size = body.length ∧ BodyOf body name hdr value timestamp kind ∧
      tagsreadFrom h off tags = if IsTagKind kind then
        tagsreadFrom h (off + (4 + body.length)) (tags ++ [tagOf name value timestamp kind])
      else .ok (some .EINVAL, [])) ∨
    ¬Scannable (h.filedata.bytes.drop off) ∧ ∃ stop, tagsreadFrom h off tags = .error stop := by
  have hread := @pread_eq h 4 off hoff (by norm_num)
  have hfrom := tagsreadFrom_of_pread hread tags
  have hdrop : (h.filedata.bytes.drop off).drop 4 = h.filedata.bytes.drop (off + 4) := List.drop_drop
  generalize hrest : h.filedata.bytes.drop off = rest at *
  have hlen : rest.length = h.filedata.bytes.length - off := hrest ▸ List.length_drop
  by_cases hlt : rest.length < 4
  · left
    refine ⟨hlt, ?_⟩
    rw [List.take_of_length_le (by omega)] at hfrom
    simp only [hfrom, if_pos (show rest.length ≠ 4 by omega), List.length_eq_zero_iff]
    split_ifs <;> rfl
  · right
    have hsize : (rest.take 4).length = 4 := by rw [List.length_take]; omega
    rw [if_neg (by omega), if_neg (by omega)] at hfrom
    have hbound := ntohl_lt hsize
    by_cases hfits : ntohl (rest.take 4) ≤ (rest.drop 4).length
    · have hbodylen : ((rest.drop 4).take (ntohl (rest.take 4))).length = ntohl (rest.take 4) := by
        rw [List.length_take]
        omega
      have hbody : readBody h (off + 4) (ntohl (rest.take 4)) [] =
          .ok ((rest.drop 4).take (ntohl (rest.take 4))) := by
        have := @readBody_eq h (off + 4) [] ((rest.drop 4).take (ntohl (rest.take 4)))
        rw [List.nil_append, hbodylen, hdrop] at this
        exact hdrop ▸ this rfl hbound
      rw [hbody] at hfrom
      dsimp only at hfrom
      rcases exists_bodyOf ((rest.drop 4).take (ntohl (rest.take 4))) with
        ⟨name, hdr, value, timestamp, kind, hfields⟩ | hfault
      · left
        refine ⟨rest.take 4, _, (rest.drop 4).drop (ntohl (rest.take 4)), name, hdr, value,
          timestamp, kind, ?_, hsize, hbodylen.symm, hfields, ?_⟩
        · rw [List.take_append_drop, List.take_append_drop]
        · rw [hfrom, parseRecord_bodyOf hfields, hbodylen, ← add_assoc]
          split_ifs <;> rfl
      · right
        rw [hfault] at hfrom
        refine ⟨fun hscan => ?_, _, hfrom⟩
        obtain ⟨-, name, hdr, value, timestamp, kind, hfields, -⟩ := hscan.exists_record (by omega)
        rw [parseRecord_bodyOf hfields] at hfault
        split_ifs at hfault
        all_goals cases hfault
    · right
      have hleft : (rest.drop 4).length = h.filedata.bytes.length - (off + 4) := by
        rw [List.length_drop]
        omega
      rw [readBody_hang (by omega) hbound (by omega)] at hfrom
      exact ⟨fun hscan => hfits (hscan.exists_record (by omega)).1, _, hfrom⟩

/-- Reading from an offset on returns exactly when what is left is scannable. -/
theorem tagsreadFrom_returns_iff (hoff : off ≤ h.filedata.bytes.length) (tags : List Attrval) :
    (∃ r, tagsreadFrom h off tags = .ok r) ↔ Scannable (h.filedata.bytes.drop off) := by
  induction hn : h.filedata.bytes.length - off using Nat.strong_induction_on generalizing off tags
  rename_i n ih
  rcases tagsreadFrom_step hoff tags with ⟨hlt, heq⟩ |
    ⟨size, body, rest, name, hdr, value, timestamp, kind, hrest, hsize, hbody, hfields, heq⟩ |
    ⟨hscan, stop, heq⟩
  · exact iff_of_true ⟨_, heq⟩ (.ends hlt)
  · have hdrop : h.filedata.bytes.drop (off + (4 + body.length)) = rest := by
      rw [← List.drop_drop, hrest, ← List.drop_drop, List.drop_left' hsize, List.drop_left' rfl]
    have hlen := congrArg List.length hrest
    rw [List.length_drop, List.length_append, List.length_append] at hlen
    rw [heq, hrest]
    by_cases hkind : IsTagKind kind
    · rw [if_pos hkind, ih (h.filedata.bytes.length - (off + (4 + body.length))) (by omega)
        (by omega) _ rfl, hdrop]
      refine ⟨fun hscan => .record hsize hbody hfields fun _ => hscan, fun hscan => ?_⟩
      obtain ⟨-, name', hdr', value', timestamp', kind', hfields', hscan⟩ := hscan.exists_record (by
        rw [List.length_append]
        omega)
      rw [List.take_left' hsize, List.drop_left' hsize, hbody, List.take_left' rfl] at hfields'
      rw [List.take_left' hsize, List.drop_left' hsize, hbody, List.drop_left' rfl] at hscan
      exact hscan (hfields.kind_eq hfields' ▸ hkind)
    · rw [if_neg hkind]
      exact iff_of_true ⟨_, rfl⟩ (.record hsize hbody hfields fun h => absurd h hkind)
  · rw [heq]
    exact iff_of_false nofun hscan

/-- The tags that were read are those of the records in front, and stay so. -/
theorem holdsTags_of_tagsreadFrom (hoff : off ≤ h.filedata.bytes.length)
    (htags : HoldsTags h.filedata.bytes tags (h.filedata.bytes.drop off)) {ret : Ret}
    {tags' : List Attrval} (heq : tagsreadFrom h off tags = .ok (ret, tags')) :
    (ret = none → HoldsTags h.filedata.bytes tags' []) ∧
      (ret ≠ none → tags' = [] ∨ ∃ rest, HoldsTags h.filedata.bytes tags' rest) := by
  induction hn : h.filedata.bytes.length - off using Nat.strong_induction_on generalizing off tags
  rename_i n ih
  rcases tagsreadFrom_step hoff tags with ⟨-, heq'⟩ |
    ⟨size, body, rest, name, hdr, value, timestamp, kind, hrest, hsize, hbody, hfields, heq'⟩ |
    ⟨-, stop, heq'⟩
  · obtain ⟨rfl, rfl⟩ := Prod.mk.inj (Except.ok.inj (heq'.symm.trans heq))
    split_ifs with hnil
    · exact ⟨fun _ => hnil ▸ htags, fun hne => absurd rfl hne⟩
    · exact ⟨nofun, fun _ => .inr ⟨_, htags⟩⟩
  · rw [heq'] at heq
    split_ifs at heq with hkind
    · have hlen := congrArg List.length hrest
      rw [List.length_drop, List.length_append, List.length_append] at hlen
      have hdrop : h.filedata.bytes.drop (off + (4 + body.length)) = rest := by
        rw [← List.drop_drop, hrest, ← List.drop_drop, List.drop_left' hsize, List.drop_left' rfl]
      refine ih (h.filedata.bytes.length - (off + (4 + body.length))) (by omega) (by omega) ?_ heq rfl
      obtain ⟨records, hcontent, hrecords⟩ := htags
      refine ⟨records ++ [size ++ body], ?_, List.rel_append hrecords (.cons ?_ .nil)⟩
      · rw [hdrop]
        refine hcontent.trans ?_
        rw [hrest, List.flatten_append, List.flatten_singleton, List.append_assoc, List.append_assoc]
      · exact ⟨size, body, name, hdr, value, timestamp, kind, rfl, hsize, hbody, hfields, hkind, rfl⟩
    · obtain ⟨rfl, rfl⟩ := Prod.mk.inj (Except.ok.inj heq)
      exact ⟨nofun, fun _ => .inl rfl⟩
  · rw [heq'] at heq
    cases heq

/-- What the reader does behind the magic number. -/
theorem tagsread_eq (h : Fhandle) : tagsread { bhandle := h, tags := [] } =
    if (h.filedata.bytes.take 4).length ≠ 4 then .ok (some Errno.EIO, { bhandle := h, tags := [] })
    else if h.filedata.bytes.take 4 ≠ TAGS_MAGIC then .ok (some .EINVAL, { bhandle := h, tags := [] })
    else (tagsreadFrom h 4 []).map fun r => (r.1, { bhandle := h, tags := r.2 }) := by
  rw [tagsread, pread_eq (Nat.zero_le _) (by norm_num), List.drop_zero, Exec.ok_bind]
  split_ifs
  · rfl
  · rfl
  · cases tagsreadFrom h 4 [] <;> rfl

/-- A file that is read to an end is scannable behind its magic number. -/
theorem scannable_of_endsWell (hends : EndsWell h) (hmagic : h.filedata.bytes.take 4 = TAGS_MAGIC) :
    Scannable (h.filedata.bytes.drop 4) := by
  obtain ⟨ret, tags, hread, -⟩ := hends
  have hlen : (h.filedata.bytes.take 4).length = 4 := congrArg List.length hmagic
  rw [tagsread_eq, if_neg (not_not.2 hlen), if_neg (not_not.2 hmagic)] at hread
  rw [List.length_take] at hlen
  refine (tagsreadFrom_returns_iff (by omega) []).1 ?_
  cases hfrom : tagsreadFrom h 4 [] with
  | ok r => exact ⟨r, rfl⟩
  | error stop =>
    rw [hfrom] at hread
    cases hread

/-- **Reading a file of tags ends** exactly when it has no magic number, or the bytes behind it
    are scannable. -/
theorem endsWell_iff (h : Fhandle) : EndsWell h ↔
    (h.filedata.bytes.take 4 = TAGS_MAGIC → Scannable (h.filedata.bytes.drop 4)) := by
  refine ⟨scannable_of_endsWell, fun hscan => ?_⟩
  by_cases hlen : (h.filedata.bytes.take 4).length = 4
  · by_cases hmagic : h.filedata.bytes.take 4 = TAGS_MAGIC
    · rw [List.length_take] at hlen
      have hoff : 4 ≤ h.filedata.bytes.length := by omega
      obtain ⟨⟨ret, tags⟩, hfrom⟩ := (tagsreadFrom_returns_iff hoff []).2 (hscan hmagic)
      have htags : HoldsTags h.filedata.bytes [] (h.filedata.bytes.drop 4) :=
        ⟨[], by rw [← hmagic, List.flatten_nil, List.nil_append, List.take_append_drop], .nil⟩
      refine ⟨ret, tags, ?_, holdsTags_of_tagsreadFrom hoff htags hfrom⟩
      rw [tagsread_eq, if_neg (not_not.2 (by rw [List.length_take]; omega)),
        if_neg (not_not.2 hmagic), hfrom]
      rfl
    · refine ⟨some .EINVAL, [], ?_, nofun, fun _ => .inl rfl⟩
      rw [tagsread_eq, if_neg (not_not.2 hlen), if_pos hmagic]
  · refine ⟨some Errno.EIO, [], ?_, nofun, fun _ => .inl rfl⟩
    rw [tagsread_eq, if_pos hlen]

end Reading

/-- A file that breaks off behind the length of its first record. -/
def brokenTags : Fhandle where
  filename := ascii "tags"
  filemode := O_RDONLY
  filedata := ⟨TAGS_MAGIC ++ htonl 5, by decide⟩
  modified := false

/-- It is read for ever. -/
theorem not_endsWell_broken : ¬EndsWell brokenTags := fun hends =>
  absurd ((scannable_of_endsWell hends rfl).exists_record (by decide)).1 (by decide)

end JobProvenance
