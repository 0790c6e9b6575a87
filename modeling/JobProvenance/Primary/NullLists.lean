import JobProvenance.Lib.NullArray
import JobProvenance.Primary.Requests

/-!
# The lists of a feed

A list of a feed that grew for its elements is the null pointer as long as there are
none, a list that was allocated for them is not, and some parts of the program ask
before they read a list and others do not. Here the way of a feed from the request
to the slaves that continue it is modelled again with the pointers: what runs it,
what stores it, and what reads it back.

* `splitLists_eq`, `runFeedLists_eq`: with attributes and conditions, the past is fed
  as if lists were never null;
* `exists_kept_iff`: when a feed is stored and read back;
* `acceptsSafely_iff`: a promise of a feed never makes the server use the null pointer
  as a list exactly when the feed has attributes and conditions, and, if a slave will
  read it back, an attribute of which something is left.
-/

namespace JobProvenance

/-! ## Feeds and their lists -/

/-- A feed, with its lists as the pointers they are. -/
structure FeedLists where
  id : Bytes
  destination : Bytes
  expires : ℤ
  continuous : Bool
  attrs : Arr Bytes
  qry : Arr QueryRec

/-- The feed, whatever its empty lists are. -/
def FeedLists.toJpfeed (f : FeedLists) : Jpfeed where
  id := f.id
  destination := f.destination
  expires := f.expires
  continuous := f.continuous
  attrs := f.attrs.getD []
  qry := f.qry.getD []

/-- The feed whose lists grew. -/
def Jpfeed.lists (feed : Jpfeed) : FeedLists where
  id := feed.id
  destination := feed.destination
  expires := feed.expires
  continuous := feed.continuous
  attrs := .ofList feed.attrs
  qry := .ofList feed.qry

/-- A new feed, whose lists grow. -/
def makeFeedLists (destination : Bytes) (attrs : List Bytes) (qry : List QueryRec) (id : Bytes)
    (expires : ℤ) : Guarded FeedLists := do
  let qry ← ofExec (qry.mapM queryrecCopy)
  return { id, destination, expires, continuous := false,
           attrs := attrs.foldl Arr.grow none, qry := qry.foldl Arr.grow none }

/-! ## Sorting -/

/-- Elements that are sorted, with how many there are of each kind. -/
structure SortedLists (α : Type) where
  metas : Arr α
  nmetas : ℕ
  others : Arr α
  nothers : ℕ

section Sorting

variable {α : Type} (isMeta dropped : α → Bool)

/-- Puts an element behind those of its kind, or drops it. -/
def SortedLists.put (l : SortedLists α) (a : α) : Guarded (SortedLists α) :=
  if isMeta a then
    if dropped a then .ok { l with nmetas := l.nmetas - 1 }
    else do
      let metas ← l.metas.push a
      return { l with metas }
  else
    if dropped a then .ok { l with nothers := l.nothers - 1 }
    else do
      let others ← l.others.push a
      return { l with others }

/-- Sorts elements into lists for which they are counted before. -/
def sortLists (as : List α) : Guarded (SortedLists α) := do
  let cnt := as.countP isMeta
  let l ← as.foldlM (SortedLists.put isMeta dropped)
    ⟨.alloc cnt, cnt, .alloc (as.length - cnt), as.length - cnt⟩
  return { l with
    metas := if l.nmetas = 0 then none else l.metas
    others := if l.nothers = 0 then none else l.others }

end Sorting

/-- A feed after its attributes and conditions are sorted. -/
structure SplitLists where
  id : Bytes
  destination : Bytes
  continuous : Bool
  metaAttr : Arr Bytes
  nmetaAttr : ℕ
  otherAttr : Arr Bytes
  notherAttr : ℕ
  intOtherAttr : ℕ
  metaQry : Arr QueryRec
  otherQry : Arr QueryRec
  notherQry : ℕ

/-- The lists of a feed that is sorted. -/
def HistoryFeed.lists (f : HistoryFeed) : SplitLists where
  id := f.id
  destination := f.destination
  continuous := f.continuous
  metaAttr := .ofList f.metaAttr
  nmetaAttr := f.metaAttr.length
  otherAttr := .ofList f.otherAttr
  notherAttr := f.otherAttr.length
  intOtherAttr := f.intOtherAttr
  metaQry := .ofList f.metaQry
  otherQry := .ofList f.otherQry
  notherQry := f.otherQry.length

/-- Puts the attribute of a condition behind the other attributes, unless it is one that
    is asked for. -/
def addAsked (intOtherAttr : ℕ) (l : Arr Bytes × ℕ) (qr : QueryRec) : Guarded (Arr Bytes × ℕ) := do
  let asked ← l.1.take intOtherAttr
  return if qr.attr ∈ asked then l else (l.1.grow qr.attr, l.2 + 1)

/-- What is sent anyway. -/
def sentAnyway (a : Bytes) : Bool :=
  if isMetadata a then a = GLITE_JP_ATTR_OWNER else a = GLITE_JP_ATTR_JOBID

/-- Sorts the attributes and the conditions. -/
def splitLists (f : FeedLists) : Guarded SplitLists := do
  let attrs ← f.attrs.elements
  let a ← sortLists isMetadata sentAnyway attrs
  let qry ← f.qry.elements
  let q ← sortLists (fun qr => isMetadata qr.attr) (fun _ => false) qry
  if q.metas = none then .error (.stop (.errno .EINVAL))
  else
    let otherQry ← q.others.take q.nothers
    let (otherAttr, notherAttr) ← otherQry.foldlM (addAsked a.nothers) (a.others, a.nothers)
    return {
      id := f.id
      destination := f.destination
      continuous := f.continuous
      metaAttr := a.metas
      nmetaAttr := a.nmetas
      otherAttr
      notherAttr
      intOtherAttr := a.nothers
      metaQry := q.metas
      otherQry := q.others
      notherQry := q.nothers }

/-! ## Feeding the past -/

section Run

variable (query : List QueryRec → List Bytes → Exec (List (Bytes × List Attrval)))
  (getAttrs : Bytes → List Bytes → Exec (List Attrval))

/-- The values of the other attributes of a job: the null pointer, if there are none. -/
def otherLists (l : SplitLists) (job : Bytes) : Guarded (Arr Attrval) := do
  let names ← l.otherAttr.take l.notherAttr
  ofExec (match getAttrs job names with
    | .ok other => .ok (some other)
    | .error (.errno .ENOENT) => .ok none
    | .error (.errno _) => .error (.errno Errno.EIO)
    | .error e => .error e)

/-- Whether values meet the other conditions. -/
def passesLists (l : SplitLists) (other : Arr Attrval) : Guarded Bool :=
  if l.notherQry ≠ 0 ∧ other = none then .ok false
  else do
    let qry ← l.otherQry.take l.notherQry
    qry.allM fun qr => do
      let other ← other.elements
      ofExec (other.anyM (checkQryItem qr))

/-- The other values that are asked for. -/
def askedLists (l : SplitLists) : Arr Attrval → Guarded (List Attrval)
  | none => .ok []
  | some other => do
    let asked ← l.otherAttr.take l.intOtherAttr
    return other.flatMap fun v => List.replicate (asked.count v.name) v

/-- The values that are sent. -/
def extractLists (l : SplitLists) (metadata : List Attrval) (other : Arr Attrval) :
    Guarded (List Attrval) := do
  let metaNames ← l.metaAttr.take l.nmetaAttr
  let ofMetadata := metadata.flatMap fun v : Attrval =>
    List.replicate (metaNames.count v.name) v
  let ofOther ← askedLists l other
  ofExec ((ofMetadata ++ ofOther).mapM Attrval.copy)

/-- The job that is stacked for a row. -/
def stackedLists (l : SplitLists) (row : Bytes × List Attrval) : Guarded (Option StackedJob) := do
  let other ← otherLists getAttrs l row.1
  if ← passesLists l other then
    let out ← extractLists l row.2 other
    if out = [] then return none
    let owner ← ofExec (rowOwner row.2)
    return some ⟨row.1, owner, out⟩
  else return none

/-- Feeds the past: the jobs that are stacked. -/
def runFeedLists (f : FeedLists) : Guarded (List StackedJob) := do
  let l ← splitLists f
  let metaQry ← l.metaQry.elements
  let rows ← ofExec (match query metaQry (GLITE_JP_ATTR_OWNER :: l.metaAttr.getD []) with
    | .error (.errno .ENOENT) => .ok []
    | rows => rows)
  let accepted ← rows.mapM (stackedLists getAttrs l)
  return accepted.reduceOption

end Run

/-! ## Storing and reading -/

section Store

variable (escape unescape : Bytes → Bytes)

/-- The row of a feed. -/
def feedsRowLists (f : FeedLists) : Guarded FeedsRow := do
  let attrs ← f.attrs.elements
  let alist := (attrs.map escape).foldl addLine none
  let qry ← f.qry.elements
  let qlist := (← ofExec (qry.mapM (condLines escape))).foldl addLine none
  return ⟨f.id, f.destination, f.expires, alist.getD nullText, qlist.getD nullText⟩

/-- Stores a feed. -/
def storeFeedLists (feeds : Table FeedsRow FeedsRow.Clash) (f : FeedLists) :
    Guarded (Table FeedsRow FeedsRow.Clash) := do
  let row ← feedsRowLists escape f
  match if row.Fits then feeds.insert row else none with
  | some feeds => return feeds
  | none => .error (.stop (.errno Errno.EIO))

/-- Registers a feed; an error is printed. -/
def registerFeedLists (now : ℤ) (feeds : Table FeedsRow FeedsRow.Clash) (f : FeedLists) :
    Guarded (Table FeedsRow FeedsRow.Clash) :=
  match storeFeedLists escape feeds f with
  | .ok feeds => .ok (refreshFeed feeds f.id (now + FEED_TTL))
  | .error (.stop (.errno _)) => .ok feeds
  | .error e => .error e

/-- The feed of a row, whose lists grow. -/
def readFeedLists (r : FeedsRow) : Guarded FeedLists := do
  let qry ← ofExec (readConds escape (strtok newline r.query))
  return {
    id := r.feedid
    destination := r.destination
    expires := r.expires
    continuous := false
    attrs := ((strtok newline r.cols).map unescape).foldl Arr.grow none
    qry := qry.foldl Arr.grow none }

end Store

/-! ## Feeding what arrives -/

section Match

variable (fed : Bytes → Exec ℕ) (getAttrs : Bytes → List Bytes → Exec (List Attrval))

/-- Whether a job of which something arrived meets the conditions of a feed, if it has
    any. -/
def isFeedMatchingLists (f : FeedLists) (job : Bytes) (attrs : List Attrval) : Guarded Bool :=
  match f.qry with
  | none => .ok true
  | some qry => ofExec (isFeedMatching getAttrs { f.toJpfeed with qry } job attrs)

/-- All that a feed asks for of a job, and its owner. -/
def fullFeedLists (f : FeedLists) (job : Bytes) : Guarded (List Attrval) := do
  let attrs ← f.attrs.elements
  ofExec (Exec.stored
    (getAttrs job (if GLITE_JP_ATTR_OWNER ∈ attrs then attrs else GLITE_JP_ATTR_OWNER :: attrs)))

/-- What is fed of a job of which something arrived, if it meets the conditions. -/
def matchFeedLists (f : FeedLists) (job : Bytes) (attrs : List Attrval) :
    Guarded (Option (List Attrval)) := do
  if ← isFeedMatchingLists getAttrs f job attrs then
    let marks ← ofExec (Exec.stored (fed f.id))
    if marks = 0 then
      let a ← fullFeedLists getAttrs f job
      return some a
    else return some attrs
  else return none

/-- What is fed of a job of which something arrived to the feeds that ask for it. -/
def matchAttrLists (feeds : List FeedLists) (job : Bytes) (attrs : List Attrval) :
    Guarded (List (Option (List Attrval))) :=
  feeds.mapM fun f => do
    let names ← f.attrs.elements
    if asksFor names attrs then matchFeedLists fed getAttrs f job attrs else return none

end Match

/-! ## Requests -/

/-- A deferred action of a promise. -/
inductive DeferredLists
  | runFeed (f : FeedLists)
  | registerFeed (f : FeedLists)

/-- The action, whatever the empty lists of the feed are. -/
def DeferredLists.toDeferred : DeferredLists → Deferred
  | .runFeed f => .runFeed f.toJpfeed
  | .registerFeed f => .registerFeed f.toJpfeed

/-- Promises a feed. -/
def serveFeedLists (now : ℤ) (id : Bytes) (r : FeedRequest) :
    Guarded (Option (List DeferredLists)) :=
  match r.destination with
  | none => .ok none
  | some destination => do
    let qry ← ofExec (r.conditions.mapM s2jpQuery)
    let past ← makeFeedLists destination r.attributes qry id 0
    let future ← makeFeedLists destination r.attributes qry id (now + FEED_TTL)
    match r.history, r.continuous with
    | true, true => return some [.runFeed { past with continuous := true }, .registerFeed future]
    | true, false => return some [.runFeed past]
    | false, true => return some [.registerFeed future]
    | false, false => return none

/-- What is wanted of a deferred action, whatever the storage has and whatever comes
    later. -/
def DeferredLists.Safe (escape unescape : Bytes → Bytes) (now : ℤ) : DeferredLists → Prop
  | .runFeed f => ∀ query getAttrs, runFeedLists query getAttrs f ≠ .error .nullList ∧
    ((∀ qr ∈ f.toJpfeed.qry, isMetadata qr.attr = false) →
      runFeedLists query getAttrs f = .error (.stop (.errno .EINVAL)))
  | .registerFeed f => ∀ feeds, registerFeedLists escape now feeds f ≠ .error .nullList ∧
    ∀ feeds', storeFeedLists escape feeds f = .ok feeds' →
      ∀ r ∈ (refreshFeed feeds' f.id (now + FEED_TTL)).rows, r.feedid = f.id →
        ∀ loaded, readFeedLists escape unescape r = .ok loaded →
          ∀ fed getAttrs job attrs,
            matchAttrLists fed getAttrs [loaded] job attrs ≠ .error .nullList

/-- Whether a request, and all that follows from it, never uses the null pointer as a list,
    and the past is not fed without a condition on what the backend knows. -/
def AcceptsSafely (escape unescape : Bytes → Bytes) (now : ℤ) (id : Bytes) (r : FeedRequest) :
    Prop :=
  serveFeedLists now id r ≠ .error .nullList ∧
    ∀ ds, serveFeedLists now id r = .ok (some ds) → ∀ d ∈ ds, d.Safe escape unescape now

/-! ## What is sorted -/

section Sorted

variable {α : Type} {isMeta dropped : α → Bool}

/-- Elements are put where there is room for them. -/
theorem foldlM_put {as : List α} {l : SortedLists α}
    (hm : (∃ a ∈ as, isMeta a = true) → l.metas ≠ none)
    (ho : (∃ a ∈ as, isMeta a = false) → l.others ≠ none) :
    as.foldlM (SortedLists.put isMeta dropped) l = .ok {
      metas := l.metas.map (· ++ as.filter fun a => isMeta a && !dropped a)
      nmetas := l.nmetas - as.countP fun a => isMeta a && dropped a
      others := l.others.map (· ++ as.filter fun a => !isMeta a && !dropped a)
      nothers := l.nothers - as.countP fun a => !isMeta a && dropped a } := by
  induction as generalizing l with
  | nil => simp [pure, Except.pure]
  | cons a as ih =>
    obtain ⟨metas, nmetas, others, nothers⟩ := l
    have hm' : (∃ a ∈ as, isMeta a = true) → metas ≠ none := fun ⟨b, hb, h⟩ =>
      hm ⟨b, List.mem_cons_of_mem _ hb, h⟩
    have ho' : (∃ a ∈ as, isMeta a = false) → others ≠ none := fun ⟨b, hb, h⟩ =>
      ho ⟨b, List.mem_cons_of_mem _ hb, h⟩
    rw [List.foldlM_cons, SortedLists.put]
    cases hma : isMeta a with
    | true =>
      obtain ⟨ms, rfl⟩ := Option.ne_none_iff_exists'.1 (hm ⟨a, List.mem_cons_self, hma⟩)
      cases hd : dropped a with
      | true =>
        have hput := ih (l := ⟨some ms, nmetas - 1, others, nothers⟩) hm' ho'
        simp only [if_true]
        refine hput.trans ?_
        simp [hma, hd, Nat.sub_sub, Nat.add_comm]
      | false =>
        have hput := ih (l := ⟨some (ms ++ [a]), nmetas, others, nothers⟩) (fun _ => nofun) ho'
        simp only [if_true, Bool.false_eq_true, if_false]
        refine hput.trans ?_
        simp [hma, hd]
    | false =>
      obtain ⟨os, rfl⟩ := Option.ne_none_iff_exists'.1 (ho ⟨a, List.mem_cons_self, hma⟩)
      cases hd : dropped a with
      | true =>
        have hput := ih (l := ⟨metas, nmetas, some os, nothers - 1⟩) hm' ho'
        simp only [if_true, Bool.false_eq_true, if_false]
        refine hput.trans ?_
        simp [hma, hd, Nat.sub_sub, Nat.add_comm]
      | false =>
        have hput := ih (l := ⟨metas, nmetas, some (os ++ [a]), nothers⟩) hm' (fun _ => nofun)
        simp only [Bool.false_eq_true, if_false]
        refine hput.trans ?_
        simp [hma, hd]

/-- Elements of a kind are those that are kept and those that are dropped. -/
theorem countP_kept (dropped : α → Bool) (as : List α) (kind : α → Bool) : as.countP kind =
    (as.filter fun a => kind a && !dropped a).length +
      as.countP fun a => kind a && dropped a := by
  induction as with
  | nil => rfl
  | cons a as ih =>
    cases hk : kind a <;> cases hd : dropped a <;> simp [hk, hd, ih] <;> omega

/-- What is allocated for some elements, and filled with others of them, none of them when
    there are none. -/
theorem alloc_append {as : List α} {n : ℕ} (h : n = 0 → as = []) :
    (if as.length = 0 then none else (Arr.alloc n).map (· ++ as)) = Arr.ofList as := by
  unfold Arr.alloc Arr.ofList
  by_cases has : as = []
  · rw [if_pos has, if_pos (List.length_eq_zero_iff.2 has)]
  · rw [if_neg has, if_neg (List.length_eq_zero_iff.not.2 has), if_neg (mt h has)]
    rfl

theorem sortLists_eq (as : List α) : sortLists isMeta dropped as = .ok {
    metas := .ofList (as.filter fun a => isMeta a && !dropped a)
    nmetas := (as.filter fun a => isMeta a && !dropped a).length
    others := .ofList (as.filter fun a => !isMeta a && !dropped a)
    nothers := (as.filter fun a => !isMeta a && !dropped a).length } := by
  have hmetas := countP_kept dropped as isMeta
  have hothers := countP_kept dropped as (! isMeta ·)
  have hlen : as.length - as.countP isMeta = as.countP (! isMeta ·) := by
    rw [List.length_eq_countP_add_countP isMeta, Nat.add_sub_cancel_left]
    simp only [Bool.not_eq_true, Bool.decide_eq_false]
  have hm : (∃ a ∈ as, isMeta a = true) → (Arr.alloc (as.countP isMeta) : Arr α) ≠ none := by
    intro h
    rw [Arr.alloc, if_neg (List.countP_pos_iff.2 h).ne']
    exact nofun
  have ho : (∃ a ∈ as, isMeta a = false) →
      (Arr.alloc (as.length - as.countP isMeta) : Arr α) ≠ none := by
    rintro ⟨a, ha, h⟩
    have hpos : 0 < as.countP (! isMeta ·) := List.countP_pos_iff.2 ⟨a, ha, by simpa using h⟩
    rw [hlen, Arr.alloc, if_neg hpos.ne']
    exact nofun
  rw [sortLists, foldlM_put hm ho, Guarded.ok_bind]
  refine congrArg Except.ok ?_
  rw [SortedLists.mk.injEq]
  have hnm : as.countP isMeta - as.countP (fun a => isMeta a && dropped a) =
      (as.filter fun a => isMeta a && !dropped a).length := by omega
  have hno : as.length - as.countP isMeta - as.countP (fun a => !isMeta a && dropped a) =
      (as.filter fun a => !isMeta a && !dropped a).length := by omega
  refine ⟨?_, hnm, ?_, hno⟩
  · rw [hnm]
    exact alloc_append fun h => List.length_eq_zero_iff.1 (by omega)
  · rw [hno]
    exact alloc_append fun h => List.length_eq_zero_iff.1 (by omega)

end Sorted

/-! ## The past is fed -/

section Past

variable {feed : Jpfeed} {f : HistoryFeed}
  {query : List QueryRec → List Bytes → Exec (List (Bytes × List Attrval))}
  {getAttrs : Bytes → List Bytes → Exec (List Attrval)}

@[simp]
theorem toJpfeed_lists (feed : Jpfeed) : feed.lists.toJpfeed = feed := by
  unfold FeedLists.toJpfeed Jpfeed.lists
  rw [Arr.getD_ofList, Arr.getD_ofList]

/-- A new feed is the one whose lists grew. -/
theorem makeFeedLists_eq (destination : Bytes) (attrs : List Bytes) (qry : List QueryRec)
    (id : Bytes) (expires : ℤ) : makeFeedLists destination attrs qry id expires =
      (ofExec (makeJpfeed destination attrs qry id expires)).map Jpfeed.lists := by
  unfold makeFeedLists makeJpfeed
  cases qry.mapM queryrecCopy with
  | error e => rfl
  | ok qry =>
    have hattrs := Arr.foldl_grow [] attrs
    have hqry := Arr.foldl_grow [] qry
    rw [Arr.ofList_nil, List.nil_append] at hattrs hqry
    rw [ofExec_ok, Guarded.ok_bind, hattrs, hqry]
    rfl

/-- The attributes of conditions that are not asked for are put behind those that are. -/
theorem foldlM_addAsked (asked rest : List Bytes) (qrs : List QueryRec) :
    qrs.foldlM (addAsked asked.length) (.ofList (asked ++ rest), (asked ++ rest).length) =
      .ok (.ofList (asked ++ rest ++ (qrs.map (·.attr)).filter (· ∉ asked)),
        (asked ++ rest ++ (qrs.map (·.attr)).filter (· ∉ asked)).length) := by
  induction qrs generalizing rest with
  | nil =>
    rw [List.map_nil, List.filter_nil, List.append_nil]
    rfl
  | cons qr qrs ih =>
    have htake : (Arr.ofList (asked ++ rest)).take asked.length = .ok asked := by
      rw [Arr.take_ofList (by rw [List.length_append]; omega), List.take_left]
    rw [List.foldlM_cons, addAsked, htake, Guarded.ok_bind, List.map_cons]
    by_cases hq : qr.attr ∈ asked
    · rw [if_pos hq, List.filter_cons_of_neg (by simpa using hq)]
      exact ih rest
    · have hlist : ∀ l : List Bytes, asked ++ rest ++ qr.attr :: l =
          asked ++ (rest ++ [qr.attr]) ++ l := fun l => by simp
      rw [if_neg hq, List.filter_cons_of_pos (by simpa using hq), Arr.grow_ofList,
        List.append_assoc asked rest [qr.attr], hlist, ← ih]
      simp only [List.length_append, List.length_singleton, Nat.add_assoc]
      rfl

/-- What is kept of the attributes. -/
theorem filter_sentAnyway (attrs : List Bytes) :
    (attrs.filter fun a => isMetadata a && !sentAnyway a) =
        (attrs.filter fun a => isMetadata a && a ≠ GLITE_JP_ATTR_OWNER) ∧
      (attrs.filter fun a => !isMetadata a && !sentAnyway a) =
        attrs.filter fun a => !isMetadata a && a ≠ GLITE_JP_ATTR_JOBID := by
  constructor <;> refine List.filter_congr fun a _ => ?_ <;> unfold sentAnyway <;>
    cases isMetadata a <;> simp

/-- A feed with attributes and conditions is sorted. -/
theorem splitLists_eq (ha : feed.attrs ≠ []) (hq : feed.qry ≠ []) :
    splitLists feed.lists = (ofExec (splitFeed feed)).map HistoryFeed.lists := by
  have hattrs := filter_sentAnyway feed.attrs
  rw [splitLists, Jpfeed.lists, Arr.elements_ofList ha, Guarded.ok_bind, sortLists_eq,
    Guarded.ok_bind, Arr.elements_ofList hq, Guarded.ok_bind, sortLists_eq, Guarded.ok_bind,
    hattrs.1, hattrs.2]
  rw [splitFeed, elements_eq_ok.2 ⟨ha, rfl⟩, Exec.ok_bind, elements_eq_ok.2 ⟨hq, rfl⟩,
    Exec.ok_bind]
  simp only [Bool.not_false, Bool.and_true, Arr.ofList_eq_none]
  split_ifs with hm
  · rfl
  · have hadd := foldlM_addAsked
      (feed.attrs.filter fun a => !isMetadata a && decide (a ≠ GLITE_JP_ATTR_JOBID)) []
      (feed.qry.filter fun qr => !isMetadata qr.attr)
    rw [List.append_nil] at hadd
    rw [Arr.take_ofList_length, Guarded.ok_bind, hadd, Guarded.ok_bind]
    rfl

theorem otherLists_eq (job : Bytes) :
    otherLists getAttrs f.lists job = ofExec (otherValues getAttrs f job) := by
  rw [otherLists, HistoryFeed.lists, Arr.take_ofList_length, Guarded.ok_bind]
  rfl

theorem passesLists_eq (other : Option (List Attrval)) :
    passesLists f.lists other = ofExec (passes f other) := by
  have htake : f.lists.otherQry.take f.lists.notherQry = .ok f.otherQry :=
    Arr.take_ofList_length _
  rw [passesLists, htake]
  cases other with
  | none =>
    by_cases h : f.otherQry = []
    · rw [if_neg fun hn => hn.1 (List.length_eq_zero_iff.2 h), h, passes, h]
      rfl
    · rw [if_pos ⟨List.length_eq_zero_iff.not.2 h, rfl⟩, passes, List.isEmpty_eq_false_iff.2 h]
      rfl
  | some other =>
    rw [if_neg fun hn => Option.some_ne_none _ hn.2, passes, ofExec_allM]
    rfl

theorem extractLists_eq (hint : f.intOtherAttr ≤ f.otherAttr.length) (metadata : List Attrval)
    (other : Option (List Attrval)) :
    extractLists f.lists metadata other = ofExec (extract f metadata other) := by
  have hm : f.lists.metaAttr.take f.lists.nmetaAttr = .ok f.metaAttr := Arr.take_ofList_length _
  have ho : f.lists.otherAttr.take f.lists.intOtherAttr = .ok (f.otherAttr.take f.intOtherAttr) :=
    Arr.take_ofList hint
  rw [extractLists, hm, Guarded.ok_bind]
  cases other with
  | none => rfl
  | some other =>
    rw [askedLists, ho]
    rfl

/-- A row is treated as if the lists were never null. -/
theorem stackedLists_eq (hint : f.intOtherAttr ≤ f.otherAttr.length)
    (row : Bytes × List Attrval) :
    stackedLists getAttrs f.lists row = ofExec (stackedJob getAttrs f row) := by
  unfold stackedLists stackedJob
  rw [otherLists_eq, ofExec_bind]
  congr 1
  funext other
  rw [passesLists_eq, ofExec_bind]
  congr 1
  funext pass
  cases pass with
  | false => rfl
  | true =>
    simp only [if_true]
    rw [extractLists_eq hint, ofExec_bind]
    congr 1
    funext out
    split_ifs
    · rfl
    · rw [ofExec_bind]
      rfl

theorem intOtherAttr_le (h : splitFeed feed = .ok f) : f.intOtherAttr ≤ f.otherAttr.length := by
  obtain ⟨attrs, -, h⟩ := Exec.bind_eq_ok.1 h
  obtain ⟨qry, -, h⟩ := Exec.bind_eq_ok.1 h
  dsimp only at h
  split_ifs at h
  obtain rfl := Except.ok.inj h
  rw [List.length_append]
  exact Nat.le_add_right _ _

/-- With attributes and conditions, the past is fed as if lists were never null. -/
theorem runFeedLists_eq (ha : feed.attrs ≠ []) (hq : feed.qry ≠ []) :
    runFeedLists query getAttrs feed.lists =
      ofExec (splitFeed feed >>= acceptedJobs query getAttrs) := by
  rw [runFeedLists, splitLists_eq ha hq]
  cases hf : splitFeed feed with
  | error e => rfl
  | ok f =>
    have hmeta : f.metaQry ≠ [] := by
      obtain ⟨attrs, -, h⟩ := Exec.bind_eq_ok.1 hf
      obtain ⟨qry, -, h⟩ := Exec.bind_eq_ok.1 h
      dsimp only at h
      split_ifs at h with hne
      obtain rfl := Except.ok.inj h
      exact hne
    have hsome : f.lists.metaQry.elements = .ok f.metaQry := Arr.elements_ofList hmeta
    have hnames : f.lists.metaAttr.getD [] = f.metaAttr := Arr.getD_ofList
    rw [ofExec_ok, Except.map, Guarded.ok_bind, hsome, Guarded.ok_bind, hnames, Exec.ok_bind,
      acceptedJobs, ofExec_bind]
    congr 1
    funext rows
    rw [ofExec_bind, ofExec_mapM]
    have hrows : stackedLists getAttrs f.lists = fun row => ofExec (stackedJob getAttrs f row) :=
      funext (stackedLists_eq (intOtherAttr_le hf))
    rw [hrows]
    rfl

/-- Without attributes, or without conditions, it is not. -/
theorem runFeedLists_null (h : feed.attrs = [] ∨ feed.qry = []) :
    runFeedLists query getAttrs feed.lists = .error .nullList := by
  rw [runFeedLists, splitLists]
  by_cases ha : feed.attrs = []
  · rw [Jpfeed.lists, ha]
    rfl
  · rw [Jpfeed.lists, Arr.elements_ofList ha, Guarded.ok_bind, sortLists_eq, Guarded.ok_bind,
      h.resolve_left ha]
    rfl

end Past

/-! ## A feed is stored and read back -/

/-- Whether a condition can be written as three lines. -/
structure QueryRec.Writable (qr : QueryRec) : Prop where
  binary : qr.binary = false
  op : qr.op ≠ .UNDEF ∧ qr.op ≠ .WITHIN

/-- The lines of a condition. -/
def condText (escape : Bytes → Bytes) (qr : QueryRec) : Bytes :=
  escape qr.attr ++ newline :: opLetter qr.op :: newline ::
    if qr.op = .EXISTS then ascii "E" else (qr.value.map escape).getD nullText

/-- Whether lines are read as conditions: the second of each three starts with the letter
    of an operator, and the last is not the first of three. -/
def Legible : List Bytes → Prop
  | [] => True
  | [_] => False
  | [_, line] => ∃ c ∈ line.head?, ∃ op, opOfChar c = .ok op
  | _ :: line :: _ :: lines => (∃ c ∈ line.head?, ∃ op, opOfChar c = .ok op) ∧ Legible lines

/-- Whether a feed is stored, and read when a slave starts. -/
structure Jpfeed.Kept (escape : Bytes → Bytes) (feed : Jpfeed) : Prop where
  writable : ∀ qr ∈ feed.qry, qr.Writable
  id : feed.id.length ≤ 32
  destination : feed.destination.length ≤ 255
  cols : (feed.attrs.map fun a => (escape a).length + 1).sum ≤ 2 ^ 24
  query : (feed.qry.map fun qr => (condText escape qr).length + 1).sum ≤ 2 ^ 24
  legible : Legible ((feed.qry.map (condText escape)).flatMap (strtok newline))

section Keep

variable {escape unescape : Bytes → Bytes} {feed : Jpfeed} {row : FeedsRow} {now : ℤ}
  {feeds feeds' : Table FeedsRow FeedsRow.Clash}

/-- When a feed expires does not matter, nor whether it is continued. -/
theorem kept_with_iff {expires : ℤ} {continuous : Bool} :
    { feed with expires, continuous : Jpfeed }.Kept escape ↔ feed.Kept escape :=
  ⟨fun ⟨h₁, h₂, h₃, h₄, h₅, h₆⟩ => ⟨h₁, h₂, h₃, h₄, h₅, h₆⟩,
    fun ⟨h₁, h₂, h₃, h₄, h₅, h₆⟩ => ⟨h₁, h₂, h₃, h₄, h₅, h₆⟩⟩

theorem condLines_eq_condText {qr : QueryRec} {t : Bytes} :
    condLines escape qr = .ok t ↔ qr.Writable ∧ t = condText escape qr := by
  unfold condLines condText
  by_cases hb : qr.binary
  · rw [if_pos hb]
    exact iff_of_false nofun fun h => by simp [h.1.binary] at hb
  · rw [if_neg hb]
    by_cases hop : qr.op ≠ .UNDEF ∧ qr.op ≠ .WITHIN
    · rw [(opChar_eq_ok hop.1 hop.2).1, Exec.ok_bind]
      have hs : qr.Writable := ⟨by simpa using hb, hop⟩
      exact ⟨fun h => ⟨hs, (Except.ok.inj h).symm⟩, fun h => congrArg _ h.2.symm⟩
    · refine iff_of_false (fun h => ?_) fun h => hop h.1.op
      obtain ⟨c, hc, -⟩ := Exec.bind_eq_ok.1 h
      refine hop ⟨fun hu => ?_, fun hw => ?_⟩
      · rw [hu] at hc
        cases hc
      · rw [hw] at hc
        cases hc

theorem mapM_condText {qrs : List QueryRec} {texts : List Bytes} :
    qrs.mapM (condLines escape) = .ok texts ↔
      (∀ qr ∈ qrs, qr.Writable) ∧ texts = qrs.map (condText escape) := by
  rw [Exec.mapM_eq_ok]
  induction qrs generalizing texts with
  | nil => simp
  | cons qr qrs ih =>
    rw [List.forall₂_cons_left_iff, List.forall_mem_cons, List.map_cons]
    constructor
    · rintro ⟨t, ts, ht, hts, rfl⟩
      obtain ⟨hs, rfl⟩ := condLines_eq_condText.1 ht
      obtain ⟨hss, rfl⟩ := ih.1 hts
      exact ⟨⟨hs, hss⟩, rfl⟩
    · rintro ⟨⟨hs, hss⟩, rfl⟩
      exact ⟨_, _, condLines_eq_condText.2 ⟨hs, rfl⟩, ih.2 ⟨hss, rfl⟩, rfl⟩

/-- A condition is read when its second line starts with the letter of an operator. -/
theorem exists_readCond_iff (escape : Bytes → Bytes) (attr line : Bytes) (value : Option Bytes) :
    (∃ qr, readCond escape attr line value = .ok qr) ↔
      ∃ c ∈ line.head?, ∃ op, opOfChar c = .ok op := by
  constructor
  · rintro ⟨qr, h⟩
    obtain ⟨c, hc, h⟩ := Exec.bind_eq_ok.1 h
    obtain ⟨op, hop, -⟩ := Exec.bind_eq_ok.1 h
    exact ⟨c, Exec.deref_eq_ok.1 hc, op, hop⟩
  · rintro ⟨c, hc, op, hop⟩
    exact ⟨_, Exec.bind_eq_ok.2 ⟨c, Exec.deref_eq_ok.2 hc, Exec.bind_eq_ok.2 ⟨op, hop, rfl⟩⟩⟩

theorem exists_readConds_iff {tokens : List Bytes} :
    (∃ qry, readConds escape tokens = .ok qry) ↔ Legible tokens := by
  induction tokens using readConds.induct with
  | case1 => exact iff_of_true ⟨[], rfl⟩ trivial
  | case2 token => exact iff_of_false (by rintro ⟨_, ⟨⟩⟩) id
  | case3 attr line =>
    rw [Legible, ← exists_readCond_iff escape attr line none]
    constructor
    · rintro ⟨qry, h⟩
      obtain ⟨qr, hqr, -⟩ := Exec.bind_eq_ok.1 h
      exact ⟨qr, hqr⟩
    · rintro ⟨qr, hqr⟩
      exact ⟨[qr], Exec.bind_eq_ok.2 ⟨qr, hqr, rfl⟩⟩
  | case4 attr line value lines ih =>
    rw [Legible, ← ih, ← exists_readCond_iff escape attr line (some value)]
    constructor
    · rintro ⟨qry, h⟩
      obtain ⟨qr, hqr, h⟩ := Exec.bind_eq_ok.1 h
      obtain ⟨qrs, hqrs, -⟩ := Exec.bind_eq_ok.1 h
      exact ⟨⟨qr, hqr⟩, qrs, hqrs⟩
    · rintro ⟨⟨qr, hqr⟩, qrs, hqrs⟩
      exact ⟨qr :: qrs, Exec.bind_eq_ok.2 ⟨qr, hqr, Exec.bind_eq_ok.2 ⟨qrs, hqrs, rfl⟩⟩⟩

/-- With attributes and conditions, a feed is stored as if lists were never null. -/
theorem feedsRowLists_eq (ha : feed.attrs ≠ []) (hq : feed.qry ≠ []) :
    feedsRowLists escape feed.lists = ofExec (feedsRow escape feed) := by
  rw [feedsRowLists, Jpfeed.lists, Arr.elements_ofList ha, Guarded.ok_bind,
    Arr.elements_ofList hq, Guarded.ok_bind, feedsRow, elements_eq_ok.2 ⟨ha, rfl⟩, Exec.ok_bind,
    elements_eq_ok.2 ⟨hq, rfl⟩, Exec.ok_bind, ofExec_bind]
  rfl

/-- Without attributes, or without conditions, it is not. -/
theorem feedsRowLists_null (h : feed.attrs = [] ∨ feed.qry = []) :
    feedsRowLists escape feed.lists = .error .nullList := by
  rw [feedsRowLists]
  by_cases ha : feed.attrs = []
  · rw [Jpfeed.lists, ha]
    rfl
  · rw [Jpfeed.lists, Arr.elements_ofList ha, Guarded.ok_bind, h.resolve_left ha]
    rfl

theorem storeFeedLists_eq (ha : feed.attrs ≠ []) (hq : feed.qry ≠ []) :
    storeFeedLists escape feeds feed.lists = ofExec (storeFeed escape feeds feed) := by
  rw [storeFeedLists, feedsRowLists_eq ha hq, storeFeed, ofExec_bind]
  congr 1
  funext row
  cases if row.Fits then feeds.insert row else none <;> rfl

/-- The row of a feed with attributes and conditions. -/
theorem feedsRow_eq_ok_iff (ha : feed.attrs ≠ []) (hq : feed.qry ≠ []) :
    feedsRow escape feed = .ok row ↔ (∀ qr ∈ feed.qry, qr.Writable) ∧
      row = ⟨feed.id, feed.destination, feed.expires,
        ((feed.attrs.map escape).foldl addLine none).getD nullText,
        ((feed.qry.map (condText escape)).foldl addLine none).getD nullText⟩ := by
  rw [feedsRow, elements_eq_ok.2 ⟨ha, rfl⟩, Exec.ok_bind, elements_eq_ok.2 ⟨hq, rfl⟩,
    Exec.ok_bind, Exec.bind_eq_ok]
  constructor
  · rintro ⟨texts, ht, h⟩
    obtain ⟨hs, rfl⟩ := mapM_condText.1 ht
    exact ⟨hs, (Except.ok.inj h).symm⟩
  · rintro ⟨hs, rfl⟩
    exact ⟨_, mapM_condText.2 ⟨hs, rfl⟩, rfl⟩

/-- A feed with attributes and conditions is kept when its row fits and is legible. -/
theorem kept_iff (ha : feed.attrs ≠ []) (hq : feed.qry ≠ []) : feed.Kept escape ↔
    ∃ row, feedsRow escape feed = .ok row ∧ row.Fits ∧
      ∃ qry, readConds escape (strtok newline row.query) = .ok qry := by
  obtain ⟨hcols, -⟩ := text_of_lines (List.map_eq_nil_iff.not.2 ha : feed.attrs.map escape ≠ [])
  obtain ⟨hquery, htok⟩ :=
    text_of_lines (List.map_eq_nil_iff.not.2 hq : feed.qry.map (condText escape) ≠ [])
  simp only [List.map_map, Function.comp_def] at hcols hquery
  simp only [feedsRow_eq_ok_iff ha hq, exists_readConds_iff, and_assoc, exists_and_left,
    exists_eq_left]
  rw [FeedsRow.Fits, htok]
  dsimp only
  constructor
  · rintro ⟨hs, hid, hdest, hc, hqry, hl⟩
    exact ⟨hs, ⟨hid, hdest, by omega, by omega⟩, hl⟩
  · rintro ⟨hs, ⟨hid, hdest, hc, hqry⟩, hl⟩
    exact ⟨hs, hid, hdest, by omega, by omega, hl⟩

end Keep

/-! ## What is read back -/

section ReadBack

variable {escape unescape : Bytes → Bytes} {feed : Jpfeed} {f : FeedLists} {row : FeedsRow}
  {fed : Bytes → Exec ℕ} {getAttrs : Bytes → List Bytes → Exec (List Attrval)} {job : Bytes}
  {attrs : List Attrval}

/-- A row is read as the feed whose lists grew. -/
theorem readFeedLists_eq : readFeedLists escape unescape row =
    (ofExec (readFeed escape unescape row)).map Jpfeed.lists := by
  unfold readFeedLists readFeed
  cases readConds escape (strtok newline row.query) with
  | error e => rfl
  | ok qry =>
    have hattrs := Arr.foldl_grow [] ((strtok newline row.cols).map unescape)
    have hqry := Arr.foldl_grow [] qry
    rw [Arr.ofList_nil, List.nil_append] at hattrs hqry
    rw [ofExec_ok, Guarded.ok_bind, hattrs, hqry]
    rfl

theorem readFeedLists_eq_ok : readFeedLists escape unescape row = .ok f ↔
    ∃ loaded, readFeed escape unescape row = .ok loaded ∧ f = loaded.lists := by
  rw [readFeedLists_eq]
  cases readFeed escape unescape row with
  | error e => exact iff_of_false nofun fun ⟨_, h, _⟩ => nomatch h
  | ok loaded =>
    constructor
    · intro h
      exact ⟨loaded, rfl, (Except.ok.inj h).symm⟩
    · rintro ⟨loaded', h, rfl⟩
      rw [Except.ok.inj h]
      rfl

/-- Whether there are conditions is asked before they are read. -/
theorem isFeedMatchingLists_eq : isFeedMatchingLists getAttrs feed.lists job attrs =
    ofExec (isFeedMatching getAttrs feed job attrs) := by
  by_cases h : feed.qry = []
  · have hnone : feed.lists.qry = none := Arr.ofList_eq_none.2 h
    rw [isFeedMatchingLists, hnone, isFeedMatching, h]
    rfl
  · have hsome : feed.lists.qry = some feed.qry := Arr.ofList_of_ne_nil h
    have hfeed : { feed.lists.toJpfeed with qry := feed.qry } = feed := by rw [toJpfeed_lists]
    rw [isFeedMatchingLists, hsome]
    exact congrArg (fun feed => ofExec (isFeedMatching getAttrs feed job attrs)) hfeed

theorem fullFeedLists_eq (ha : feed.attrs ≠ []) : fullFeedLists getAttrs feed.lists job =
    ofExec (Exec.stored (fullFeed getAttrs feed job)) := by
  rw [fullFeedLists, Jpfeed.lists, Arr.elements_ofList ha, Guarded.ok_bind, fullFeed,
    elements_eq_ok.2 ⟨ha, rfl⟩, Exec.ok_bind]

theorem matchFeedLists_ne_nullList (ha : feed.attrs ≠ []) :
    matchFeedLists fed getAttrs feed.lists job attrs ≠ .error .nullList := by
  rw [matchFeedLists, isFeedMatchingLists_eq]
  cases isFeedMatching getAttrs feed job attrs with
  | error e => exact nofun
  | ok pass =>
    cases pass with
    | false => exact nofun
    | true =>
      cases hfed : Exec.stored (fed feed.lists.id) with
      | error e =>
        simp only [ofExec_ok, Guarded.ok_bind, if_true]
        exact nofun
      | ok marks =>
        simp only [ofExec_ok, Guarded.ok_bind, if_true]
        split_ifs
        · rw [fullFeedLists_eq ha]
          cases Exec.stored (fullFeed getAttrs feed job) <;> exact nofun
        · exact nofun

/-- A feed is compared with what arrives when it has attributes. -/
theorem matchAttrLists_ne_nullList_iff :
    (∀ fed getAttrs job attrs,
      matchAttrLists fed getAttrs [feed.lists] job attrs ≠ .error .nullList) ↔ feed.attrs ≠ [] := by
  constructor
  · intro h ha
    refine h (fun _ => .ok 0) (fun _ _ => .ok []) [] [] ?_
    rw [matchAttrLists, Jpfeed.lists, ha]
    rfl
  · intro ha fed getAttrs job attrs h
    rw [matchAttrLists, List.mapM_cons] at h
    have helem : feed.lists.attrs.elements = .ok feed.attrs := Arr.elements_ofList ha
    rw [helem, Guarded.ok_bind] at h
    split_ifs at h
    · cases hm : matchFeedLists fed getAttrs feed.lists job attrs with
      | error e =>
        rw [hm, Guarded.error_bind] at h
        exact matchFeedLists_ne_nullList ha (hm.trans (congrArg _ (Except.error.inj h)))
      | ok out =>
        rw [hm] at h
        cases h
    · cases h

/-- The attributes that are read back are there when some byte of them is no end of a
    line. -/
theorem cols_tokens_ne_nil {names : List Bytes} (h : names ≠ []) :
    strtok newline ((names.foldl addLine none).getD nullText) ≠ [] ↔
      ∃ a ∈ names, ∃ b ∈ a, b ≠ newline := by
  rw [(text_of_lines h).2, ne_eq, List.flatMap_eq_nil_iff]
  simp only [strtok_eq_nil_iff]
  push Not
  rfl

end ReadBack

/-! ## Requests -/

/-- The feed a request asks for, with its conditions copied. -/
structure FeedRequest.Asks (r : FeedRequest) (feed : Jpfeed) : Prop where
  destination : r.destination = some feed.destination
  wanted : r.history = true ∨ r.continuous = true
  attrs : feed.attrs = r.attributes
  qry : r.conditions.mapM s2jpQuery >>= (·.mapM queryrecCopy) = .ok feed.qry

/-- The deferred actions for a feed. -/
def FeedRequest.actions (r : FeedRequest) (now : ℤ) (feed : Jpfeed) : List DeferredLists :=
  (if r.history then
    [.runFeed { feed with expires := 0, continuous := r.continuous : Jpfeed }.lists] else []) ++
  if r.continuous then
    [.registerFeed { feed with expires := now + FEED_TTL, continuous := false : Jpfeed }.lists]
  else []

section Requests

variable {escape unescape : Bytes → Bytes} {now : ℤ} {id : Bytes} {r : FeedRequest}
  {ds : List DeferredLists} {feed : Jpfeed}

/-- A promise: the feed is asked for, and its conditions can be copied. -/
theorem serveFeedLists_eq : serveFeedLists now id r = match r.destination with
    | none => .ok none
    | some destination =>
      (ofExec (r.conditions.mapM s2jpQuery >>= (·.mapM queryrecCopy))).map fun qry =>
        if r.history || r.continuous then
          some (r.actions now ⟨id, destination, 0, false, r.attributes, qry⟩)
        else none := by
  unfold serveFeedLists FeedRequest.actions
  cases r.destination with
  | none => rfl
  | some destination =>
    cases r.conditions.mapM s2jpQuery with
    | error e => rfl
    | ok qry =>
      simp only [ofExec_ok, Guarded.ok_bind, Exec.ok_bind, makeFeedLists_eq, makeJpfeed]
      cases qry.mapM queryrecCopy with
      | error e => rfl
      | ok copies => cases r.history <;> cases r.continuous <;> rfl

/-- It is the one that is given as if lists were never null. -/
theorem serveFeedLists_toDeferred : (serveFeedLists now id r).map
    (Option.map (List.map DeferredLists.toDeferred)) = ofExec (serveFeedIndex now id r) := by
  rw [serveFeedLists_eq]
  unfold serveFeedIndex FeedRequest.actions
  cases r.destination with
  | none => rfl
  | some destination =>
    cases r.conditions.mapM s2jpQuery with
    | error e => rfl
    | ok qry =>
      simp only [Exec.ok_bind, makeJpfeed]
      cases qry.mapM queryrecCopy with
      | error e => rfl
      | ok copies =>
        cases r.history <;> cases r.continuous <;>
          simp only [Exec.ok_bind, ofExec_ok, Except.map, Option.map, List.map,
            DeferredLists.toDeferred, toJpfeed_lists, Bool.or_true, Bool.or_false,
            Bool.false_eq_true, if_true, if_false, List.append_nil, List.nil_append,
            List.singleton_append] <;> rfl

theorem serveFeedLists_ne_nullList : serveFeedLists now id r ≠ .error .nullList := by
  rw [serveFeedLists_eq]
  cases r.destination with
  | none => exact nofun
  | some destination =>
    cases r.conditions.mapM s2jpQuery >>= (·.mapM queryrecCopy) <;> exact nofun

/-- What is promised are the actions for a feed that is asked for. -/
theorem serveFeedLists_eq_some : serveFeedLists now id r = .ok (some ds) ↔
    ∃ feed : Jpfeed, r.Asks feed ∧ feed.id = id ∧ ds = r.actions now feed := by
  rw [serveFeedLists_eq]
  constructor
  · cases hd : r.destination with
    | none => exact nofun
    | some destination =>
      dsimp only
      cases hqry : r.conditions.mapM s2jpQuery >>= (·.mapM queryrecCopy) with
      | error e => exact nofun
      | ok qry =>
        intro h
        have h' := Except.ok.inj h
        split_ifs at h' with hw
        rw [Bool.or_eq_true] at hw
        exact ⟨⟨id, destination, 0, false, r.attributes, qry⟩, ⟨hd, hw, rfl, hqry⟩, rfl,
          (Option.some.inj h').symm⟩
  · rintro ⟨feed, h, rfl, rfl⟩
    have hw : (r.history || r.continuous) = true := Bool.or_eq_true_iff.2 h.wanted
    rw [h.destination, h.attrs.symm]
    simp only [h.qry, hw, if_true]
    rfl

end Requests

/-! ## When nothing goes wrong -/

section Safe

variable {escape unescape : Bytes → Bytes} {now expires : ℤ} {id : Bytes} {feed loaded : Jpfeed}
  {row : FeedsRow}

/-- The past is not fed without a condition on what the backend knows. -/
theorem splitFeed_of_noMetadata (ha : feed.attrs ≠ []) (hq : feed.qry ≠ [])
    (h : ∀ qr ∈ feed.qry, isMetadata qr.attr = false) :
    splitFeed feed = .error (.errno .EINVAL) := by
  have hnil : feed.qry.filter (fun qr => isMetadata qr.attr) = [] := by
    rw [List.filter_eq_nil_iff]
    intro qr hqr hm
    rw [h qr hqr] at hm
    cases hm
  rw [splitFeed, elements_eq_ok.2 ⟨ha, rfl⟩, Exec.ok_bind, elements_eq_ok.2 ⟨hq, rfl⟩,
    Exec.ok_bind]
  exact if_pos hnil

/-- The past is fed safely when there are attributes and conditions. -/
theorem safe_runFeed_iff : (DeferredLists.runFeed feed.lists).Safe escape unescape now ↔
    feed.attrs ≠ [] ∧ feed.qry ≠ [] := by
  constructor
  · intro h
    have hnull : ¬(feed.attrs = [] ∨ feed.qry = []) := fun hnil =>
      (h (fun _ _ => .ok []) fun _ _ => .ok []).1 (runFeedLists_null hnil)
    rwa [not_or] at hnull
  · rintro ⟨ha, hq⟩ query getAttrs
    rw [runFeedLists_eq ha hq, toJpfeed_lists]
    refine ⟨ofExec_ne_nullList, fun hmeta => ?_⟩
    rw [splitFeed_of_noMetadata ha hq hmeta]
    rfl

/-- Only the expiration of a row is changed. -/
theorem FeedsRow.texts_refresh (row : FeedsRow) :
    (row.refresh id expires).cols = row.cols ∧ (row.refresh id expires).query = row.query := by
  unfold refresh
  split_ifs <;> exact ⟨rfl, rfl⟩

/-- The feed of a row whose conditions can be read. -/
theorem readFeed_eq_ok_iff : readFeed escape unescape row = .ok loaded ↔
    ∃ qry, readConds escape (strtok newline row.query) = .ok qry ∧
      loaded = ⟨row.feedid, row.destination, row.expires, false,
        (strtok newline row.cols).map unescape, qry⟩ := by
  rw [readFeed, Exec.bind_eq_ok]
  refine exists_congr fun qry => and_congr_right fun _ => ?_
  exact ⟨fun h => (Except.ok.inj h).symm, fun h => congrArg _ h.symm⟩

/-- The attributes of a feed that is read back are there when some byte of them is no end
    of a line. -/
theorem attrs_readBack (ha : feed.attrs ≠ []) (hq : feed.qry ≠ [])
    (hrow : feedsRow escape feed = .ok row)
    (hread : readFeed escape unescape (row.refresh id expires) = .ok loaded) :
    loaded.attrs ≠ [] ↔ ∃ a ∈ feed.attrs, ∃ b ∈ escape a, b ≠ newline := by
  obtain ⟨qry, -, rfl⟩ := readFeed_eq_ok_iff.1 hread
  obtain ⟨-, hrow⟩ := (feedsRow_eq_ok_iff ha hq).1 hrow
  have hcols : row.cols = ((feed.attrs.map escape).foldl addLine none).getD nullText := by
    rw [hrow]
  have hne : feed.attrs.map escape ≠ [] := List.map_eq_nil_iff.not.2 ha
  rw [List.map_eq_nil_iff.ne, row.texts_refresh.1, hcols, cols_tokens_ne_nil hne]
  simp only [List.mem_map, exists_exists_and_eq_and]

/-- A feed is registered, and continued, safely when there are attributes and conditions,
    and, if it is kept, an attribute is left of it. -/
theorem safe_registerFeed_iff : (DeferredLists.registerFeed feed.lists).Safe escape unescape now ↔
    feed.attrs ≠ [] ∧ feed.qry ≠ [] ∧
      (feed.Kept escape → ∃ a ∈ feed.attrs, ∃ b ∈ escape a, b ≠ newline) := by
  constructor
  · intro h
    have hlists : ¬(feed.attrs = [] ∨ feed.qry = []) := by
      intro hnil
      refine (h .empty).1 ?_
      rw [registerFeedLists, storeFeedLists, feedsRowLists_null hnil]
      rfl
    rw [not_or] at hlists
    obtain ⟨ha, hq⟩ := hlists
    refine ⟨ha, hq, fun hkept => ?_⟩
    obtain ⟨row, hrow, hfits, qry, hqry⟩ := (kept_iff ha hq).1 hkept
    -- it is stored in the table without rows, and read from there
    obtain ⟨feeds', hins⟩ : ∃ feeds',
        (Table.empty : Table FeedsRow FeedsRow.Clash).insert row = some feeds' :=
      ⟨_, dif_pos (List.forall_mem_nil _)⟩
    have hstore : storeFeed escape .empty feed = .ok feeds' :=
      storeFeed_eq_ok.2 ⟨row, hrow, hfits, List.forall_mem_nil _, (Table.insert_eq_some.1 hins).2⟩
    have hmem : row.refresh feed.id (now + FEED_TTL) ∈
        (refreshFeed feeds' feed.id (now + FEED_TTL)).rows := by
      refine Table.mem_update.2 ⟨row, ?_, rfl⟩
      rw [(Table.insert_eq_some.1 hins).2]
      exact List.mem_append_right _ (List.mem_singleton_self _)
    have hid : row.feedid = feed.id := by rw [((feedsRow_eq_ok_iff ha hq).1 hrow).2]
    obtain ⟨loaded, hread⟩ : ∃ loaded,
        readFeed escape unescape (row.refresh feed.id (now + FEED_TTL)) = .ok loaded :=
      ⟨_, readFeed_eq_ok_iff.2 ⟨qry, by rw [row.texts_refresh.2, hqry], rfl⟩⟩
    refine (attrs_readBack ha hq hrow hread).1 (matchAttrLists_ne_nullList_iff.1 ?_)
    refine (h .empty).2 feeds' ?_ _ hmem (Eq.trans (FeedsRow.feedid_refresh ..) hid) _ ?_
    · rw [storeFeedLists_eq ha hq, hstore]
      rfl
    · exact readFeedLists_eq_ok.2 ⟨_, hread, rfl⟩
  · rintro ⟨ha, hq, hattr⟩ feeds
    refine ⟨?_, fun feeds' hstore r hr hid f hf => ?_⟩
    · rw [registerFeedLists, storeFeedLists_eq ha hq]
      cases storeFeed escape feeds feed with
      | ok feeds' => exact nofun
      | error e => cases e <;> exact nofun
    · rw [storeFeedLists_eq ha hq] at hstore
      obtain ⟨row, hrow, hfits, hfresh, hrows⟩ := storeFeed_eq_ok.1 (ofExec_eq_ok.1 hstore)
      have hrowid : row.feedid = feed.id := by rw [((feedsRow_eq_ok_iff ha hq).1 hrow).2]
      -- the row that is read is the one that was stored
      obtain ⟨r₀, hr₀, rfl⟩ := Table.mem_update.1 hr
      have hself : r₀ = row := by
        rw [hrows, List.mem_append, List.mem_singleton] at hr₀
        refine hr₀.resolve_left fun hold => hfresh r₀ hold ?_
        rw [hrowid, ← FeedsRow.feedid_refresh feed.id (now + FEED_TTL) r₀]
        exact hid
      subst hself
      obtain ⟨loaded, hread, rfl⟩ := readFeedLists_eq_ok.1 hf
      obtain ⟨qry, hqry, -⟩ := readFeed_eq_ok_iff.1 hread
      rw [r₀.texts_refresh.2] at hqry
      have hkept := (kept_iff ha hq).2 ⟨r₀, hrow, hfits, qry, hqry⟩
      exact matchAttrLists_ne_nullList_iff.2 ((attrs_readBack ha hq hrow hread).2 (hattr hkept))

theorem acceptsSafely_iff (escape unescape : Bytes → Bytes) (now : ℤ) (id : Bytes)
    (r : FeedRequest) : AcceptsSafely escape unescape now id r ↔
    ∀ feed : Jpfeed, r.Asks feed → feed.id = id → feed.attrs ≠ [] ∧ feed.qry ≠ [] ∧
      (r.continuous = true → feed.Kept escape →
        ∃ a ∈ feed.attrs, ∃ b ∈ escape a, b ≠ newline) := by
  constructor
  · rintro ⟨-, h⟩ feed hasks hid
    have hsafe := h _ (serveFeedLists_eq_some.2 ⟨feed, hasks, hid, rfl⟩)
    have hregister : r.continuous = true → feed.attrs ≠ [] ∧ feed.qry ≠ [] ∧
        (feed.Kept escape → ∃ a ∈ feed.attrs, ∃ b ∈ escape a, b ≠ newline) := by
      intro hc
      have hmem := safe_registerFeed_iff.1 (hsafe _ (List.mem_append_right _ (by
        rw [if_pos hc]
        exact List.mem_singleton_self _)))
      rwa [kept_with_iff] at hmem
    rcases hasks.wanted with hh | hc
    · obtain ⟨ha, hq⟩ := safe_runFeed_iff.1 (hsafe _ (List.mem_append_left _ (by
        rw [if_pos hh]
        exact List.mem_singleton_self _)))
      exact ⟨ha, hq, fun hc => (hregister hc).2.2⟩
    · obtain ⟨ha, hq, hattr⟩ := hregister hc
      exact ⟨ha, hq, fun _ => hattr⟩
  · intro h
    refine ⟨serveFeedLists_ne_nullList, fun ds hds d hd => ?_⟩
    obtain ⟨feed, hasks, hid, rfl⟩ := serveFeedLists_eq_some.1 hds
    obtain ⟨ha, hq, hattr⟩ := h feed hasks hid
    rcases List.mem_append.1 hd with hd | hd
    · split_ifs at hd with hh
      · obtain rfl := List.mem_singleton.1 hd
        exact safe_runFeed_iff.2 ⟨ha, hq⟩
      · cases hd
    · split_ifs at hd with hc
      · obtain rfl := List.mem_singleton.1 hd
        exact safe_registerFeed_iff.2 ⟨ha, hq, by rw [kept_with_iff]; exact hattr hc⟩
      · cases hd

end Safe

/-- The owners of all jobs of the past. -/
def ownersOfAll : FeedRequest where
  destination := some (ascii "https://jpis")
  attributes := [GLITE_JP_ATTR_OWNER]
  conditions := []
  history := true
  continuous := false

/-- A feed without conditions is promised, and the null pointer is read when it is run. -/
theorem not_acceptsSafely_ownersOfAll :
    ¬AcceptsSafely escapeULM unescapeULM 100 (ascii "feed") ownersOfAll := by
  intro h
  have hds : serveFeedLists 100 (ascii "feed") ownersOfAll = .ok (some [.runFeed
      ⟨ascii "feed", ascii "https://jpis", 0, false, some [GLITE_JP_ATTR_OWNER], none⟩]) := rfl
  exact (h.2 _ hds _ List.mem_cons_self (beQuery [] []) noOtherAttrs).1 rfl

end JobProvenance
