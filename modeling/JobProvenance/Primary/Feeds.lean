import JobProvenance.Common.QueryRec
import JobProvenance.Lib.Table

/-!
# Feeds in the database

A primary storage keeps the feeds it has promised to continue in a table, from
which the slaves read them when they start: the attributes and the conditions of
a feed are each one text, of lines that are escaped by a library.

* `storedTokens`: the lines `storeFeed` writes, as `readFeed` finds them: an
  empty one is lost;
* `feedRoundTrips_iff`: a feed is read as it was stored exactly when it has
  conditions, none of them within bounds or on an origin, none of its lines is
  empty, and escaping what is escaped changes nothing: reading the conditions
  escapes them once more.
-/

namespace JobProvenance

/-! ## Feeds -/

/-- A feed: arrays without elements are null pointers. -/
structure Jpfeed where
  id : Bytes
  destination : Bytes
  expires : ℤ
  continuous : Bool
  attrs : List Bytes
  qry : List QueryRec
  deriving DecidableEq

/-- The elements of an array, which must not be the null pointer. -/
def elements {α : Type} (array : List α) : Exec (List α) :=
  if array.isEmpty then .error .fault else .ok array

/-- The copy of a value as a string, whatever it is: bytes are copied up to one that is
    zero, and with it. -/
def strdupValue (binary : Bool) (value : Bytes) : Exec Bytes :=
  if binary then
    if 0 ∈ value then .ok (cstr value ++ [0]) else .error .fault
  else .ok (cstr value)

/-- The copy of a query record. -/
def queryrecCopy (qr : QueryRec) : Exec QueryRec := do
  let value ← qr.value.mapM (strdupValue qr.binary)
  let value2 ← qr.value2.mapM (strdupValue qr.binary)
  return { qr with value, value2 }

/-- A new feed. -/
def makeJpfeed (destination : Bytes) (attrs : List Bytes) (qry : List QueryRec) (id : Bytes)
    (expires : ℤ) : Exec Jpfeed := do
  let qry ← qry.mapM queryrecCopy
  return { id, destination, expires, continuous := false, attrs, qry }

/-- A row of the table `feeds`. -/
structure FeedsRow where
  feedid : Bytes
  destination : Bytes
  expires : ℤ
  cols : Bytes
  query : Bytes
  deriving DecidableEq

/-- The key of `feeds`. -/
def FeedsRow.Clash (a b : FeedsRow) : Prop := a.feedid = b.feedid

instance : DecidableRel FeedsRow.Clash := fun _ _ => inferInstanceAs (Decidable (_ = _))

instance : Std.Symm FeedsRow.Clash := ⟨fun _ _ => Eq.symm⟩

/-- Whether the texts of a row are as short as their columns want them. -/
def FeedsRow.Fits (r : FeedsRow) : Prop :=
  r.feedid.length ≤ 32 ∧ r.destination.length ≤ 255 ∧ r.cols.length < 2 ^ 24 ∧
    r.query.length < 2 ^ 24

instance (r : FeedsRow) : Decidable r.Fits := inferInstanceAs (Decidable (_ ∧ _))

/-! ## Storing and reading -/

section Store

variable (escape unescape : Bytes → Bytes)

/-- The end of a line. -/
def newline : UInt8 := ch '\n'

/-- Puts a line behind the ones that are there. -/
def addLine (list : Option Bytes) (line : Bytes) : Option Bytes :=
  match list with
  | none => some line
  | some list => some (list ++ newline :: line)

/-- The letter of an operator; there is none for a range. -/
def opChar : JpQueryOp → Exec UInt8
  | .EQUAL => .ok (ch '=')
  | .UNEQUAL => .ok (ch '!')
  | .LESS => .ok (ch '<')
  | .GREATER => .ok (ch '>')
  | .EXISTS => .ok (ch 'E')
  | .UNDEF | .WITHIN => .error .fault

/-- The lines of a condition. -/
def condLines (qr : QueryRec) : Exec Bytes := do
  if qr.binary then .error .fault
  else
    let op ← opChar qr.op
    let value := if qr.op = .EXISTS then ascii "E" else (qr.value.map escape).getD nullText
    return escape qr.attr ++ newline :: op :: newline :: value

/-- The row of a feed. -/
def feedsRow (feed : Jpfeed) : Exec FeedsRow := do
  let attrs ← elements feed.attrs
  let alist := (attrs.map escape).foldl addLine none
  let qry ← elements feed.qry
  let qlist := (← qry.mapM (condLines escape)).foldl addLine none
  return ⟨feed.id, feed.destination, feed.expires, alist.getD nullText, qlist.getD nullText⟩

/-- Stores a feed. -/
def storeFeed (feeds : Table FeedsRow FeedsRow.Clash) (feed : Jpfeed) :
    Exec (Table FeedsRow FeedsRow.Clash) := do
  let row ← feedsRow escape feed
  match if row.Fits then feeds.insert row else none with
  | some feeds => return feeds
  | none => .error (.errno Errno.EIO)

/-- The operator of a letter. -/
def opOfChar (c : UInt8) : Exec JpQueryOp :=
  if c = ch '=' then .ok .EQUAL
  else if c = ch '<' then .ok .LESS
  else if c = ch '>' then .ok .GREATER
  else if c = ch '!' then .ok .UNEQUAL
  else if c = ch 'E' then .ok .EXISTS
  else .error .fault

/-- The condition of three lines, of which the last may be missing. What is read is
    escaped, not unescaped. -/
def readCond (attr line : Bytes) (value : Option Bytes) : Exec QueryRec := do
  let c ← Exec.deref line.head?
  let op ← opOfChar c
  return { QueryRec.zero (escape attr) with
    op, value := if op = .EXISTS then none else value.map escape }

/-- The conditions of the lines. -/
def readConds : List Bytes → Exec (List QueryRec)
  | [] => .ok []
  | [_] => .error .fault
  | [attr, line] => do
    let qr ← readCond escape attr line none
    return [qr]
  | attr :: line :: value :: lines => do
    let qr ← readCond escape attr line (some value)
    let qry ← readConds lines
    return qr :: qry

/-- The feed of a row. -/
def readFeed (r : FeedsRow) : Exec Jpfeed := do
  let qry ← readConds escape (strtok newline r.query)
  return {
    id := r.feedid
    destination := r.destination
    expires := r.expires
    continuous := false
    attrs := (strtok newline r.cols).map unescape
    qry }

/-- Reads the feeds that are not expired. -/
def readFeeds (now : ℤ) (feeds : Table FeedsRow FeedsRow.Clash) : Exec (List Jpfeed) := do
  let loaded ← (feeds.rows.filter fun r => now < r.expires).mapM (readFeed escape unescape)
  return loaded.reverse

end Store

/-! ## The lines of a text -/

section Lines

variable {escape unescape : Bytes → Bytes} {qr : QueryRec} {qrs : List QueryRec}

/-- Lines behind a text: its size, and the lines that are found in it. -/
theorem foldl_addLine (s : Bytes) (lines : List Bytes) : ∃ t, lines.foldl addLine (some s) = some t ∧
    t.length = s.length + (lines.map fun l => l.length + 1).sum ∧
      strtok newline t = strtok newline s ++ lines.flatMap (strtok newline) := by
  induction lines generalizing s with
  | nil => exact ⟨s, rfl, by simp, by simp⟩
  | cons l lines ih =>
    obtain ⟨t, ht, hlen, htok⟩ := ih (s ++ newline :: l)
    refine ⟨t, ht, ?_, ?_⟩
    · rw [hlen, List.length_append, List.length_cons, List.map_cons, List.sum_cons]
      omega
    · rw [htok, strtok_append_cons, List.flatMap_cons, List.append_assoc]

/-- A text of some lines. -/
theorem text_of_lines {lines : List Bytes} (h : lines ≠ []) :
    ((lines.foldl addLine none).getD nullText).length + 1 = (lines.map fun l => l.length + 1).sum ∧
      strtok newline ((lines.foldl addLine none).getD nullText) =
        lines.flatMap (strtok newline) := by
  obtain ⟨l, lines, rfl⟩ := List.exists_cons_of_ne_nil h
  obtain ⟨t, ht, hlen, htok⟩ := foldl_addLine l lines
  have htext : (l :: lines).foldl addLine none = some t := ht
  rw [htext, Option.getD_some]
  refine ⟨?_, by rw [htok, List.flatMap_cons]⟩
  rw [hlen, List.map_cons, List.sum_cons]
  omega

/-- Of lines none of which is empty, all are found. -/
theorem flatMap_strtok {lines : List Bytes} (h : ∀ l ∈ lines, newline ∉ l) :
    lines.flatMap (strtok newline) = lines.filter (· ≠ []) := by
  induction lines with
  | nil => rfl
  | cons l lines ih =>
    rw [List.forall_mem_cons] at h
    rw [List.flatMap_cons, strtok_of_notMem h.1, ih h.2, ← List.filter_append,
      List.singleton_append]

end Lines

/-! ## What is read of what was stored -/

/-- The escaping of the library: it is undone, and leaves one line. -/
structure IsUlm (escape unescape : Bytes → Bytes) : Prop where
  unescape_escape : ∀ s, unescape (escape s) = s
  newline_notMem : ∀ s, newline ∉ escape s

/-- What `s2jpQuery` makes of a comparison with strings. -/
structure QueryRec.IsString (qr : QueryRec) : Prop where
  binary : qr.binary = false
  size : qr.size = 0
  size2 : qr.size2 = 0
  op : qr.op ≠ .UNDEF ∧ qr.op ≠ .EXISTS
  value : qr.value ≠ none
  value2 : qr.op ≠ .WITHIN → qr.value2 = none

section Cond

variable {escape unescape : Bytes → Bytes} {qr : QueryRec} {qrs : List QueryRec}

/-- The letter of an operator, or nothing printable. -/
def opLetter (op : JpQueryOp) : UInt8 :=
  match opChar op with
  | .ok c => c
  | .error _ => 0

/-- The lines of a comparison with a string. -/
def condTokens (escape : Bytes → Bytes) (qr : QueryRec) : List Bytes :=
  [escape qr.attr, [opLetter qr.op], escape (qr.value.getD [])]

/-- What is read of them. -/
def reread (escape : Bytes → Bytes) (qr : QueryRec) : QueryRec :=
  { QueryRec.zero (escape (escape qr.attr)) with
    op := qr.op, value := some (escape (escape (qr.value.getD []))) }

theorem opChar_eq_ok {op : JpQueryOp} (h : op ≠ .UNDEF) (h' : op ≠ .WITHIN) :
    opChar op = .ok (opLetter op) ∧ opOfChar (opLetter op) = .ok op := by
  cases op with
  | UNDEF => exact absurd rfl h
  | WITHIN => exact absurd rfl h'
  | EQUAL | UNEQUAL | LESS | GREATER | EXISTS => exact ⟨rfl, rfl⟩

theorem newline_ne_opLetter (op : JpQueryOp) : newline ≠ opLetter op := by
  cases op <;> decide

/-- A comparison with a string has lines unless it is one within bounds. -/
theorem condLines_eq_ok (hq : qr.IsString) {lines : Bytes} : condLines escape qr = .ok lines ↔
    qr.op ≠ .WITHIN ∧ lines = escape qr.attr ++ newline :: opLetter qr.op :: newline ::
      escape (qr.value.getD []) := by
  obtain ⟨v, hv⟩ := Option.ne_none_iff_exists'.1 hq.value
  rw [condLines, if_neg (by simp [hq.binary])]
  by_cases h : qr.op = .WITHIN
  · rw [h]
    exact iff_of_false (fun h => by cases h) fun h => h.1 rfl
  · rw [(opChar_eq_ok hq.op.1 h).1, Exec.ok_bind, if_neg hq.op.2, hv]
    exact ⟨fun he => ⟨h, (Except.ok.inj he).symm⟩, fun he => congrArg _ he.2.symm⟩

/-- All of the lines are found but the empty ones. -/
theorem strtok_condLines (hu : IsUlm escape unescape) : strtok newline
    (escape qr.attr ++ newline :: opLetter qr.op :: newline :: escape (qr.value.getD [])) =
      (condTokens escape qr).filter (· ≠ []) := by
  have hop : newline ∉ [opLetter qr.op] := by
    rw [List.mem_singleton]
    exact newline_ne_opLetter qr.op
  have hsplit : opLetter qr.op :: newline :: escape (qr.value.getD []) =
      [opLetter qr.op] ++ newline :: escape (qr.value.getD []) := rfl
  rw [strtok_append_cons, hsplit, strtok_append_cons, strtok_of_notMem (hu.newline_notMem _),
    strtok_of_notMem hop, strtok_of_notMem (hu.newline_notMem _), ← List.filter_append,
    ← List.filter_append]
  rfl

/-- Conditions that all have a value were read of three lines each. -/
theorem length_of_readConds {tokens : List Bytes} (h : readConds escape tokens = .ok qrs)
    (hv : ∀ qr ∈ qrs, qr.value ≠ none) : tokens.length = 3 * qrs.length := by
  induction tokens using readConds.induct generalizing qrs with
  | case1 =>
    cases h
    rfl
  | case2 => cases h
  | case3 attr line =>
    obtain ⟨qr, hqr, h⟩ := Exec.bind_eq_ok.1 h
    obtain rfl := Except.ok.inj h
    obtain ⟨c, -, hqr⟩ := Exec.bind_eq_ok.1 hqr
    obtain ⟨op, -, hqr⟩ := Exec.bind_eq_ok.1 hqr
    obtain rfl := Except.ok.inj hqr
    exact absurd (ite_self none) (hv _ (List.mem_singleton_self _))
  | case4 attr line value lines ih =>
    obtain ⟨qr, -, h⟩ := Exec.bind_eq_ok.1 h
    obtain ⟨qry, hqry, h⟩ := Exec.bind_eq_ok.1 h
    obtain rfl := Except.ok.inj h
    have := ih hqry fun qr hqr => hv qr (List.mem_cons_of_mem _ hqr)
    simp only [List.length_cons]
    omega

/-- What is read of the lines of some conditions, when they are all found. -/
theorem readConds_condTokens (hq : ∀ qr ∈ qrs, qr.IsString ∧ qr.op ≠ .WITHIN) :
    readConds escape (qrs.flatMap (condTokens escape)) = .ok (qrs.map (reread escape)) := by
  induction qrs with
  | nil => rfl
  | cons qr qrs ih =>
    rw [List.forall_mem_cons] at hq
    have hcond : readCond escape (escape qr.attr) [opLetter qr.op]
        (some (escape (qr.value.getD []))) = .ok (reread escape qr) := by
      rw [readCond, List.head?_cons, Exec.deref, Exec.ok_bind, (opChar_eq_ok hq.1.1.op.1 hq.1.2).2,
        Exec.ok_bind, if_neg hq.1.1.op.2]
      rfl
    rw [List.flatMap_cons, condTokens, List.cons_append, List.cons_append, List.cons_append,
      List.nil_append, readConds, hcond, Exec.ok_bind, ih hq.2]
    rfl

theorem reread_eq_self (hq : qr.IsString) (hop : qr.op ≠ .WITHIN) : reread escape qr = qr ↔
    qr.origin = .any ∧ escape (escape qr.attr) = qr.attr ∧
      ∀ v ∈ qr.value, escape (escape v) = v := by
  obtain ⟨v, hv⟩ := Option.ne_none_iff_exists'.1 hq.value
  obtain ⟨hbin, hsize, hsize2, -, -, hvalue2⟩ := hq
  obtain ⟨attr, op, value, value2, binary, size, size2, origin⟩ := qr
  obtain rfl : value = some v := hv
  obtain rfl : value2 = none := hvalue2 hop
  obtain rfl : binary = false := hbin
  obtain rfl : size = 0 := hsize
  obtain rfl : size2 = 0 := hsize2
  simp only [reread, QueryRec.zero, QueryRec.mk.injEq, Option.getD_some, Option.some.injEq, true_and,
    Option.mem_def, forall_eq']
  tauto

end Cond

/-! ## The round trip -/

/-- A feed as a request asks for it: attributes, all of them with a name, and
    comparisons with strings. -/
structure Jpfeed.Requested (feed : Jpfeed) : Prop where
  attrs : feed.attrs ≠ []
  attr : ∀ a ∈ feed.attrs, a ≠ []
  qry : ∀ qr ∈ feed.qry, qr.IsString

/-- Whether a feed that is stored is read again before it expires. -/
def FeedRoundTrips (escape unescape : Bytes → Bytes) (now : ℤ)
    (feeds : Table FeedsRow FeedsRow.Clash) (feed : Jpfeed) : Prop :=
  ∃ feeds', storeFeed escape feeds feed = .ok feeds' ∧
    ∃ loaded, readFeeds escape unescape now feeds' = .ok loaded ∧
      ∃ f ∈ loaded, f.id = feed.id ∧ f.destination = feed.destination ∧ f.attrs = feed.attrs ∧
        f.qry = feed.qry

/-- Whether a feed has columns that hold its texts. -/
structure Jpfeed.Fits (escape : Bytes → Bytes) (feed : Jpfeed) : Prop where
  id : feed.id.length ≤ 32
  destination : feed.destination.length ≤ 255
  cols : (feed.attrs.map fun a => (escape a).length + 1).sum ≤ 2 ^ 24
  query : (feed.qry.map fun qr => (escape qr.attr).length + (escape (qr.value.getD [])).length +
    4).sum ≤ 2 ^ 24

/-- Whether a condition is read as it was written. -/
structure QueryRec.Restored (escape : Bytes → Bytes) (qr : QueryRec) : Prop where
  op : qr.op ≠ .WITHIN
  origin : qr.origin = .any
  attr : escape qr.attr ≠ [] ∧ escape (escape qr.attr) = qr.attr
  value : ∀ v ∈ qr.value, escape v ≠ [] ∧ escape (escape v) = v

/-- Whether a feed can be stored among others and read with them. -/
structure Jpfeed.Persistent (escape unescape : Bytes → Bytes) (now : ℤ)
    (feeds : Table FeedsRow FeedsRow.Clash) (feed : Jpfeed) : Prop where
  fresh : ∀ r ∈ feeds.rows, r.feedid ≠ feed.id
  readable : ∀ r ∈ feeds.rows, now < r.expires → ∃ f, readFeed escape unescape r = .ok f
  fits : feed.Fits escape
  attr : ∀ a ∈ feed.attrs, escape a ≠ []
  qry : feed.qry ≠ []
  cond : ∀ qr ∈ feed.qry, qr.Restored escape

section RoundTrip

variable {escape unescape : Bytes → Bytes} {now : ℤ} {feeds feeds' : Table FeedsRow FeedsRow.Clash}
  {feed : Jpfeed} {row : FeedsRow}

/-- The row a feed is stored as, its texts by their sizes and lines. -/
structure IsRowOf (escape : Bytes → Bytes) (feed : Jpfeed) (row : FeedsRow) : Prop where
  feedid : row.feedid = feed.id
  destination : row.destination = feed.destination
  expires : row.expires = feed.expires
  cols_length : row.cols.length + 1 = (feed.attrs.map fun a => (escape a).length + 1).sum
  query_length : row.query.length + 1 = (feed.qry.map fun qr =>
    (escape qr.attr).length + (escape (qr.value.getD [])).length + 4).sum
  cols : strtok newline row.cols = (feed.attrs.map escape).filter (· ≠ [])
  query : strtok newline row.query = (feed.qry.flatMap (condTokens escape)).filter (· ≠ [])

theorem elements_eq_ok {α : Type} {array as : List α} :
    elements array = .ok as ↔ array ≠ [] ∧ as = array := by
  cases array <;> simp [elements, eq_comm]

theorem mapM_condLines {qrs : List QueryRec} (hq : ∀ qr ∈ qrs, qr.IsString) {texts : List Bytes} :
    qrs.mapM (condLines escape) = .ok texts ↔ (∀ qr ∈ qrs, qr.op ≠ .WITHIN) ∧
      texts = qrs.map fun qr => escape qr.attr ++ newline :: opLetter qr.op :: newline ::
        escape (qr.value.getD []) := by
  rw [Exec.mapM_eq_ok]
  induction qrs generalizing texts with
  | nil => simp
  | cons qr qrs ih =>
    rw [List.forall_mem_cons] at hq
    rw [List.forall₂_cons_left_iff]
    simp only [condLines_eq_ok hq.1, ih hq.2, List.forall_mem_cons, List.map_cons]
    constructor
    · rintro ⟨_, _, ⟨h, rfl⟩, ⟨h', rfl⟩, rfl⟩
      exact ⟨⟨h, h'⟩, rfl⟩
    · rintro ⟨⟨h, h'⟩, rfl⟩
      exact ⟨_, _, ⟨h, rfl⟩, ⟨h', rfl⟩, rfl⟩

/-- A feed has a row when it has conditions, none of them within bounds. -/
theorem feedsRow_eq_ok (hu : IsUlm escape unescape) (hf : feed.Requested) :
    feedsRow escape feed = .ok row →
      feed.qry ≠ [] ∧ (∀ qr ∈ feed.qry, qr.op ≠ .WITHIN) ∧ IsRowOf escape feed row := by
  intro h
  obtain ⟨attrs, ha, h⟩ := Exec.bind_eq_ok.1 h
  obtain ⟨-, rfl⟩ := elements_eq_ok.1 ha
  obtain ⟨qry, hqry, h⟩ := Exec.bind_eq_ok.1 h
  obtain ⟨hne, rfl⟩ := elements_eq_ok.1 hqry
  obtain ⟨texts, htexts, h⟩ := Exec.bind_eq_ok.1 h
  obtain ⟨hop, rfl⟩ := (mapM_condLines hf.qry).1 htexts
  obtain rfl := Except.ok.inj h
  have hcols : feed.attrs.map escape ≠ [] := by simpa using hf.attrs
  obtain ⟨hclen, hctok⟩ := text_of_lines hcols
  obtain ⟨hqlen, hqtok⟩ := text_of_lines (List.map_eq_nil_iff.not.2 hne)
  refine ⟨hne, hop, rfl, rfl, rfl, ?_, hqlen.trans ?_, ?_, hqtok.trans ?_⟩
  · rw [hclen, List.map_map]
    rfl
  · rw [List.map_map]
    refine congrArg List.sum (List.map_congr_left fun qr _ => ?_)
    simp only [Function.comp_apply, List.length_append, List.length_cons]
    omega
  · rw [hctok, flatMap_strtok]
    rintro _ hl
    obtain ⟨a, -, rfl⟩ := List.mem_map.1 hl
    exact hu.newline_notMem a
  · rw [List.flatMap_map, List.filter_flatMap]
    exact List.flatMap_congr fun qr _ => strtok_condLines hu

theorem exists_feedsRow (hf : feed.Requested) (hne : feed.qry ≠ [])
    (hop : ∀ qr ∈ feed.qry, qr.op ≠ .WITHIN) : ∃ row, feedsRow escape feed = .ok row :=
  ⟨_, Exec.bind_eq_ok.2 ⟨_, elements_eq_ok.2 ⟨hf.attrs, rfl⟩, Exec.bind_eq_ok.2
    ⟨_, elements_eq_ok.2 ⟨hne, rfl⟩, Exec.bind_eq_ok.2
      ⟨_, (mapM_condLines hf.qry).2 ⟨hop, rfl⟩, rfl⟩⟩⟩⟩

/-- The texts of a row fit when those of its feed do. -/
theorem IsRowOf.fits_iff (h : IsRowOf escape feed row) : row.Fits ↔ feed.Fits escape := by
  have hc := h.cols_length
  have hq := h.query_length
  rw [FeedsRow.Fits, h.feedid, h.destination]
  constructor
  · rintro ⟨h₁, h₂, h₃, h₄⟩
    exact ⟨h₁, h₂, by omega, by omega⟩
  · rintro ⟨h₁, h₂, h₃, h₄⟩
    exact ⟨h₁, h₂, by omega, by omega⟩

/-- When a filter keeps all elements or a list is as long as what it keeps. -/
theorem filter_ne_nil_length {ls : List Bytes} (h : (ls.filter (· ≠ [])).length = ls.length) :
    ∀ l ∈ ls, l ≠ [] := by
  simpa using List.length_filter_eq_length_iff.1 h

/-- Reading a row gives the attributes and the conditions of its feed when no line
    is lost and the conditions are as they are read. -/
theorem IsRowOf.readFeed_iff (h : IsRowOf escape feed row) (hu : IsUlm escape unescape)
    (hf : feed.Requested) (hop : ∀ qr ∈ feed.qry, qr.op ≠ .WITHIN) :
    (∃ f, readFeed escape unescape row = .ok f ∧ f.attrs = feed.attrs ∧ f.qry = feed.qry) ↔
      (∀ a ∈ feed.attrs, escape a ≠ []) ∧ ∀ qr ∈ feed.qry, qr.Restored escape := by
  have hlen : (feed.qry.flatMap (condTokens escape)).length = 3 * feed.qry.length := by
    simp [List.length_flatMap, condTokens, mul_comm]
  constructor
  · rintro ⟨f, hread, hattrs, hqry⟩
    obtain ⟨qry, hconds, hread⟩ := Exec.bind_eq_ok.1 hread
    obtain rfl := Except.ok.inj hread
    obtain rfl : qry = feed.qry := hqry
    rw [h.query] at hconds
    -- as many lines were found as there are
    have hall := filter_ne_nil_length <|
      (length_of_readConds hconds fun qr hqr => (hf.qry qr hqr).value).trans hlen.symm
    have hfilter := List.filter_eq_self.2 fun l hl => decide_eq_true (hall l hl)
    rw [hfilter, readConds_condTokens fun qr hqr => ⟨hf.qry qr hqr, hop qr hqr⟩,
      Except.ok.injEq] at hconds
    constructor
    · have hcols := congrArg List.length hattrs
      simp only [h.cols, List.length_map] at hcols
      intro a ha
      refine filter_ne_nil_length ?_ (escape a) (List.mem_map_of_mem ha)
      rw [hcols, List.length_map]
    · intro qr hqr
      have hself : reread escape qr = qr :=
        List.map_inj_left.1 (hconds.trans (List.map_id _).symm) qr hqr
      obtain ⟨horigin, hattr, hvalue⟩ := (reread_eq_self (hf.qry qr hqr) (hop qr hqr)).1 hself
      have hmem : ∀ l ∈ condTokens escape qr, l ≠ [] := fun l hl =>
        hall l (List.mem_flatMap.2 ⟨qr, hqr, hl⟩)
      refine ⟨hop qr hqr, horigin, ⟨hmem _ (by simp [condTokens]), hattr⟩, fun v hv => ⟨?_, hvalue v hv⟩⟩
      refine hmem _ ?_
      simp [condTokens, Option.mem_def.1 hv]
  · rintro ⟨hattrs, hcond⟩
    have hall : ∀ l ∈ feed.qry.flatMap (condTokens escape), l ≠ [] := by
      intro l hl
      obtain ⟨qr, hqr, hl⟩ := List.mem_flatMap.1 hl
      obtain ⟨v, hv⟩ := Option.ne_none_iff_exists'.1 (hf.qry qr hqr).value
      simp only [condTokens, hv, Option.getD_some, List.mem_cons, List.not_mem_nil, or_false] at hl
      rcases hl with rfl | rfl | rfl
      · exact (hcond qr hqr).attr.1
      · exact List.cons_ne_nil _ _
      · exact ((hcond qr hqr).value v hv).1
    have hfilter := List.filter_eq_self.2 fun l hl => decide_eq_true (hall l hl)
    have hreread : feed.qry.map (reread escape) = feed.qry := by
      refine (List.map_inj_left.2 fun qr hqr => ?_).trans (List.map_id _)
      have hr := hcond qr hqr
      exact (reread_eq_self (hf.qry qr hqr) hr.op).2 ⟨hr.origin, hr.attr.2, fun v hv => (hr.value v hv).2⟩
    have hconds : readConds escape (strtok newline row.query) = .ok feed.qry := by
      rw [h.query, hfilter, readConds_condTokens fun qr hqr => ⟨hf.qry qr hqr, hop qr hqr⟩, hreread]
    refine ⟨_, Exec.bind_eq_ok.2 ⟨_, hconds, rfl⟩, ?_, rfl⟩
    have hkeep : (feed.attrs.map escape).filter (· ≠ []) = feed.attrs.map escape := by
      refine List.filter_eq_self.2 fun l hl => ?_
      obtain ⟨a, ha, rfl⟩ := List.mem_map.1 hl
      exact decide_eq_true (hattrs a ha)
    simp only [h.cols, hkeep, List.map_map]
    refine (List.map_inj_left.2 fun a _ => ?_).trans (List.map_id _)
    exact hu.unescape_escape a

theorem readFeed_id {f : Jpfeed} (h : readFeed escape unescape row = .ok f) :
    f.id = row.feedid ∧ f.destination = row.destination := by
  obtain ⟨qry, -, h⟩ := Exec.bind_eq_ok.1 h
  obtain rfl := Except.ok.inj h
  exact ⟨rfl, rfl⟩

/-- What is loaded are the feeds of the rows that are not expired. -/
theorem readFeeds_eq_ok {loaded : List Jpfeed}
    (h : readFeeds escape unescape now feeds = .ok loaded) :
    (∀ r ∈ feeds.rows, now < r.expires → ∃ f ∈ loaded, readFeed escape unescape r = .ok f) ∧
      ∀ f ∈ loaded, ∃ r ∈ feeds.rows, readFeed escape unescape r = .ok f := by
  obtain ⟨fs, hfs, h⟩ := Exec.bind_eq_ok.1 h
  obtain rfl := Except.ok.inj h
  obtain ⟨hrow, hfeed⟩ := Exec.mem_of_mapM hfs
  refine ⟨fun r hr hnow => ?_, fun f hf => ?_⟩
  · obtain ⟨f, hf, hread⟩ := hrow r (List.mem_filter.2 ⟨hr, decide_eq_true hnow⟩)
    exact ⟨f, List.mem_reverse.2 hf, hread⟩
  · obtain ⟨r, hr, hread⟩ := hfeed f (List.mem_reverse.1 hf)
    exact ⟨r, (List.mem_filter.1 hr).1, hread⟩

/-- When all of the rows that are not expired can be read, they are. -/
theorem exists_readFeeds
    (h : ∀ r ∈ feeds.rows, now < r.expires → ∃ f, readFeed escape unescape r = .ok f) :
    ∃ loaded, readFeeds escape unescape now feeds = .ok loaded := by
  obtain ⟨fs, hfs⟩ : ∃ fs, (feeds.rows.filter fun r => now < r.expires).mapM
      (readFeed escape unescape) = .ok fs := by
    refine Exec.exists_mapM fun r hr => ?_
    rw [List.mem_filter, decide_eq_true_eq] at hr
    exact h r hr.1 hr.2
  exact ⟨fs.reverse, Exec.bind_eq_ok.2 ⟨fs, hfs, rfl⟩⟩

/-- A feed is stored when its texts fit and its identifier is new. -/
theorem storeFeed_eq_ok : storeFeed escape feeds feed = .ok feeds' ↔
    ∃ row, feedsRow escape feed = .ok row ∧ row.Fits ∧ (∀ r ∈ feeds.rows, r.feedid ≠ row.feedid) ∧
      feeds'.rows = feeds.rows ++ [row] := by
  rw [storeFeed, Exec.bind_eq_ok]
  refine exists_congr fun row => and_congr_right fun _ => ?_
  by_cases hfits : row.Fits
  · rw [if_pos hfits]
    cases h : feeds.insert row with
    | none =>
      refine iff_of_false (fun h => by cases h) fun ⟨_, hnew, hrows⟩ => ?_
      have hins := Table.insert_eq_some.2 ⟨hnew, hrows⟩
      rw [h] at hins
      cases hins
    | some feeds'' =>
      have hins := Table.insert_eq_some.1 h
      constructor
      · rintro ⟨⟩
        exact ⟨hfits, hins⟩
      · rintro ⟨-, hnew⟩
        exact congrArg _ (Table.ext (hins.2.trans hnew.2.symm))
  · rw [if_neg hfits]
    exact iff_of_false (fun h => by cases h) fun h => hfits h.1

/-- A feed that is stored is read as it was exactly when it is persistent. -/
theorem feedRoundTrips_iff (hu : IsUlm escape unescape) (hf : feed.Requested)
    (hnow : now < feed.expires) : FeedRoundTrips escape unescape now feeds feed ↔
      feed.Persistent escape unescape now feeds := by
  constructor
  · rintro ⟨feeds', hstore, loaded, hload, f, hfl, hid, -, hattrs, hqry⟩
    obtain ⟨row, hrow, hfits, hnew, hrows⟩ := storeFeed_eq_ok.1 hstore
    obtain ⟨hne, hop, hrow⟩ := feedsRow_eq_ok hu hf hrow
    obtain ⟨hread, hfeed⟩ := readFeeds_eq_ok hload
    -- the feed was read from the row that was stored
    have hself : readFeed escape unescape row = .ok f := by
      obtain ⟨r, hr, hrf⟩ := hfeed f hfl
      rw [hrows, List.mem_append, List.mem_singleton] at hr
      rcases hr with hr | rfl
      · refine absurd ?_ (hnew r hr)
        rw [← (readFeed_id hrf).1, hid, hrow.feedid]
      · exact hrf
    obtain ⟨hattr, hcond⟩ := (hrow.readFeed_iff hu hf hop).1 ⟨f, hself, hattrs, hqry⟩
    refine ⟨fun r hr => hrow.feedid ▸ hnew r hr, fun r hr hexp => ?_, hrow.fits_iff.1 hfits, hattr,
      hne, hcond⟩
    obtain ⟨f, -, hf⟩ := hread r (hrows ▸ List.mem_append_left _ hr) hexp
    exact ⟨f, hf⟩
  · rintro ⟨hfresh, hreadable, hfits, hattr, hne, hcond⟩
    have hop : ∀ qr ∈ feed.qry, qr.op ≠ .WITHIN := fun qr hqr => (hcond qr hqr).op
    obtain ⟨row, hrow⟩ := exists_feedsRow hf hne hop
    obtain ⟨-, -, hrowOf⟩ := feedsRow_eq_ok hu hf hrow
    obtain ⟨f, hread, hattrs, hqry⟩ := (hrowOf.readFeed_iff hu hf hop).2 ⟨hattr, hcond⟩
    obtain ⟨feeds', hins⟩ : ∃ feeds', feeds.insert row = some feeds' :=
      ⟨_, dif_pos fun r hr h => hfresh r hr (Eq.trans h hrowOf.feedid)⟩
    have hrows := (Table.insert_eq_some.1 hins).2
    have hstore := storeFeed_eq_ok.2
      ⟨row, hrow, hrowOf.fits_iff.2 hfits, fun r hr => hrowOf.feedid ▸ hfresh r hr, hrows⟩
    obtain ⟨loaded, hload⟩ : ∃ loaded, readFeeds escape unescape now feeds' = .ok loaded := by
      refine exists_readFeeds fun r hr hexp => ?_
      rw [hrows, List.mem_append, List.mem_singleton] at hr
      rcases hr with hr | rfl
      · exact hreadable r hr hexp
      · exact ⟨f, hread⟩
    have hmem : row ∈ feeds'.rows := hrows ▸ List.mem_append_right _ (List.mem_singleton_self row)
    obtain ⟨f', hf', hread'⟩ := (readFeeds_eq_ok hload).1 row hmem (hrowOf.expires ▸ hnow)
    obtain rfl := Except.ok.inj (hread.symm.trans hread')
    obtain ⟨hid, hdest⟩ := readFeed_id hread
    exact ⟨feeds', hstore, loaded, hload, f, hf', hid.trans hrowOf.feedid,
      hdest.trans hrowOf.destination, hattrs, hqry⟩

end RoundTrip

/-! ## The library -/

/-- The escaping of the library: a backslash stands in front of quotes and
    backslashes, and the end of a line is written as a letter. -/
def escapeULM : Bytes → Bytes
  | [] => []
  | c :: cs =>
    if c = newline then ch '\\' :: ch 'n' :: escapeULM cs
    else if c = ch '\\' ∨ c = ch '"' then ch '\\' :: c :: escapeULM cs
    else c :: escapeULM cs

def unescapeULM : Bytes → Bytes
  | [] => []
  | [c] => [c]
  | c :: d :: cs =>
    if c = ch '\\' then (if d = ch 'n' then newline else d) :: unescapeULM cs
    else c :: unescapeULM (d :: cs)

theorem unescapeULM_plain {c : UInt8} (h : c ≠ ch '\\') (cs : Bytes) :
    unescapeULM (c :: cs) = c :: unescapeULM cs := by
  cases cs with
  | nil => rfl
  | cons d cs => rw [unescapeULM, if_neg h]

theorem isUlm_escapeULM : IsUlm escapeULM unescapeULM where
  unescape_escape s := by
    induction s with
    | nil => rfl
    | cons c cs ih =>
      rw [escapeULM]
      split_ifs with hn hq
      · rw [unescapeULM, if_pos rfl, if_pos rfl, ih, hn]
      · rw [unescapeULM, if_pos rfl, ih, if_neg]
        rintro rfl
        exact absurd hq (by decide)
      · rw [unescapeULM_plain fun h => hq (.inl h), ih]
  newline_notMem s := by
    induction s with
    | nil => exact List.not_mem_nil
    | cons c cs ih =>
      rw [escapeULM]
      split_ifs with hn hq
      · simp only [List.mem_cons, not_or]
        exact ⟨by decide, by decide, ih⟩
      · simp only [List.mem_cons, not_or]
        exact ⟨by decide, fun h => hn h.symm, ih⟩
      · simp only [List.mem_cons, not_or]
        exact ⟨fun h => hn h.symm, ih⟩

/-- A feed of the color of jobs, under a condition on it. -/
def colorFeed (op : JpQueryOp) (value : Bytes) (value2 : Option Bytes) : Jpfeed where
  id := ascii "feed"
  destination := ascii "https://is"
  expires := 360
  continuous := false
  attrs := [ascii "urn:app:color"]
  qry := [{ QueryRec.zero (ascii "urn:app:color") with op, value := some value, value2 }]

theorem requested_colorFeed {op : JpQueryOp} {value : Bytes} {value2 : Option Bytes}
    (hop : op ≠ .UNDEF ∧ op ≠ .EXISTS) (h₂ : op ≠ .WITHIN → value2 = none) :
    (colorFeed op value value2).Requested where
  attrs := List.cons_ne_nil _ _
  attr := by simp [colorFeed, ascii]
  qry qr hqr := by
    rw [List.mem_singleton.1 hqr]
    exact ⟨rfl, rfl, rfl, hop, Option.some_ne_none _, h₂⟩

/-- A feed of the red jobs is stored and read. -/
theorem feedRoundTrips_red :
    FeedRoundTrips escapeULM unescapeULM 100 .empty (colorFeed .EQUAL (ascii "red") none) := by
  refine (feedRoundTrips_iff isUlm_escapeULM (requested_colorFeed (by simp) fun _ => rfl)
    (by decide)).2 ⟨by simp [Table.empty], by simp [Table.empty], ⟨?_, ?_, ?_, ?_⟩, ?_,
      List.cons_ne_nil _ _, fun qr hqr => ?_⟩
  · decide
  · decide
  · decide
  · decide
  · exact fun a ha => by rw [List.mem_singleton.1 ha]; decide
  · rw [List.mem_singleton.1 hqr]
    refine ⟨by decide, rfl, by decide, fun v hv => ?_⟩
    obtain rfl := Option.some.inj hv
    decide

/-- Storing a feed of a range of jobs aborts, and a feed of jobs whose color has a
    quote in it is read as one of others. -/
theorem not_feedRoundTrips_color : storeFeed escapeULM .empty
      (colorFeed .WITHIN (ascii "blue") (some (ascii "red"))) = .error .fault ∧
    ¬FeedRoundTrips escapeULM unescapeULM 100 .empty
      (colorFeed .WITHIN (ascii "blue") (some (ascii "red"))) ∧
    ¬FeedRoundTrips escapeULM unescapeULM 100 .empty
      (colorFeed .EQUAL (ascii "\"red\"") none) := by
  refine ⟨rfl, ?_, ?_⟩
  · rintro ⟨feeds', h, -⟩
    cases h
  · rintro ⟨feeds', hstore, loaded, hload, f, hf, -, -, -, hqry⟩
    obtain ⟨row, hrow, -, -, hrows⟩ := storeFeed_eq_ok.1 hstore
    obtain ⟨r, hr, hread⟩ := (readFeeds_eq_ok hload).2 f hf
    rw [hrows] at hr
    obtain rfl := List.mem_singleton.1 hr
    have hne : ((feedsRow escapeULM (colorFeed .EQUAL (ascii "\"red\"") none)) >>=
        readFeed escapeULM unescapeULM).map Jpfeed.qry ≠
          .ok (colorFeed .EQUAL (ascii "\"red\"") none).qry := by decide +kernel
    rw [hrow, Exec.ok_bind, hread] at hne
    exact hne (congrArg _ hqry)

end JobProvenance
