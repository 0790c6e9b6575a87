import JobProvenance.Primary.Spoof

/-!
# Decisions on conditions

What it means that a value meets a condition, and that a job meets the conditions of
a feed, and how far the comparison and the matcher get to decide it.

* `decided_iff`: a comparison is decided unless it applies to a value of the other
  kind, or only asks whether there is one;
* `isFeedMatching_eq_ok_iff`: what the matcher returns, whatever is retrieved;
* `matchDecided_iff`: it decides whether each condition is met by the first value
  that is given, or else by the first one that is retrieved, exactly when it copes
  with the order of the conditions and with what is retrieved (`Decisive`).
-/

namespace JobProvenance

/-! ## One condition -/

/-- A condition applies to the values of its attribute from where it asks for. -/
def QueryRec.AppliesTo (qr : QueryRec) (attr : Attrval) : Prop :=
  qr.attr = attr.name ∧ (qr.origin = .any ∨ qr.origin = attr.origin)

/-- The value of a condition, as a value of its attribute. -/
def QueryRec.bound (qr : QueryRec) (value : Option Bytes) (size : ℕ) : Attrval where
  name := qr.attr
  value := value.getD []
  binary := qr.binary
  size := size
  origin := qr.origin
  originDetail := none
  timestamp := 0

/-- A value and the value of a condition are in one of some orders. -/
def QueryRec.Ordered (qr : QueryRec) (attr : Attrval) (value : Option Bytes) (size : ℕ)
    (os : List Ordering) : Prop :=
  ∃ o ∈ os, attrvalCmp [] attr (qr.bound value size) = some o

/-- What an operator says of a value. -/
def QueryOp.Accepts (qr : QueryRec) (attr : Attrval) : QueryOp → Prop
  | .EXISTS => True
  | .EQUAL => qr.Ordered attr qr.value qr.size [.eq]
  | .UNEQUAL => qr.Ordered attr qr.value qr.size [.lt, .gt]
  | .LESS => qr.Ordered attr qr.value qr.size [.lt]
  | .GREATER => qr.Ordered attr qr.value qr.size [.gt]
  | .WITHIN => qr.Ordered attr qr.value qr.size [.eq, .gt] ∧
      qr.Ordered attr qr.value2 qr.size2 [.lt, .eq]

/-- The comparison returns, and tells whether a value meets a condition of a request. -/
def Decided (c : PrimaryQuery) (qr : QueryRec) (attr : Attrval) : Prop :=
  ∃ b, checkQryItem qr attr = .ok b ∧ (b = true ↔ qr.AppliesTo attr ∧ c.op.Accepts qr attr)

section Condition

variable {c : PrimaryQuery} {qr : QueryRec} {attr : Attrval} {v : Bytes} {size : ℕ}

/-- The record of a condition of a request: its operator, unless that only asks whether
    there is a value, and a value for each comparison. -/
theorem s2jpQuery_eq_ok (h : s2jpQuery c = .ok qr) :
    qr.op = (if c.op = .EXISTS then .UNDEF else soapToQueryOp c.op) ∧
      (∃ v, qr.value = some v) ∧ (c.op = .WITHIN → ∃ v, qr.value2 = some v) := by
  obtain ⟨⟨value, binary, size⟩, -, h⟩ := Exec.bind_eq_ok.1 h
  cases hop : c.op with
  | WITHIN =>
    simp only [hop] at h
    obtain ⟨⟨value2, b, size2⟩, -, h⟩ := Exec.bind_eq_ok.1 h
    dsimp only at h
    split_ifs at h
    obtain rfl := Except.ok.inj h
    exact ⟨rfl, ⟨_, rfl⟩, fun _ => ⟨_, rfl⟩⟩
  | EQUAL | UNEQUAL | GREATER | LESS | EXISTS =>
    simp only [hop] at h
    obtain rfl := Except.ok.inj h
    exact ⟨rfl, ⟨_, rfl⟩, nofun⟩

/-- Values of one kind are compared, … -/
theorem exists_attrvalCmp (hname : qr.attr = attr.name) (hkind : qr.binary = attr.binary) :
    ∃ o, attrvalCmp [] attr (qr.bound (some v) size) = some o ∧
      qryCmp qr attr (some v) size = .ok o := by
  have hfb : ∃ o, fbCmp attr (qr.bound (some v) size) = some o := by
    rw [fbCmp, if_neg fun h => h hkind.symm]
    split <;> exact ⟨_, rfl⟩
  obtain ⟨o, ho⟩ := hfb
  have hcmp : attrvalCmp [] attr (qr.bound (some v) size) = some o := by
    rw [attrvalCmp, if_neg fun h => h hname.symm]
    exact ho
  refine ⟨o, hcmp, ?_⟩
  simp only [qryCmp, qryValue, Exec.deref, Exec.ok_bind, pure, Except.pure]
  simp only [QueryRec.bound, Option.getD_some] at hcmp
  rw [hcmp]

/-- … and values of different kinds stop the server. -/
theorem qryCmp_of_kinds (hname : qr.attr = attr.name) (hkind : qr.binary ≠ attr.binary) :
    qryCmp qr attr (some v) size = .error .fault := by
  have hcmp : ∀ b : Attrval, b.name = attr.name → b.binary ≠ attr.binary →
      attrvalCmp [] attr b = none := by
    intro b hb hbin
    rw [attrvalCmp, if_neg fun h => h hb.symm]
    exact if_pos hbin.symm
  simp only [qryCmp, qryValue, Exec.deref, Exec.ok_bind, pure, Except.pure]
  rw [hcmp _ hname hkind]

/-- A condition that does not apply to a value is not met. -/
theorem checkQryItem_of_not_appliesTo (h : ¬qr.AppliesTo attr) : checkQryItem qr attr = .ok false := by
  by_cases hname : qr.attr = attr.name
  · refine checkQryItem_of_origin hname (not_or.1 fun ho => h ⟨hname, ho⟩)
  · rw [checkQryItem, if_pos hname]
    rfl

/-- A comparison is decided unless the condition applies to the value, and the kinds
    differ or the operator only asks whether there is one. -/
theorem decided_iff (h : s2jpQuery c = .ok qr) : Decided c qr attr ↔
    (qr.AppliesTo attr → c.op ≠ .EXISTS ∧ qr.binary = attr.binary) := by
  obtain ⟨hop, ⟨v, hv⟩, hv2⟩ := s2jpQuery_eq_ok h
  by_cases happ : qr.AppliesTo attr
  · obtain ⟨hname, ho⟩ := happ
    have hvalue : qryCmp qr attr qr.value qr.size = qryCmp qr attr (some v) qr.size := by rw [hv]
    rw [Decided, and_iff_right (show qr.AppliesTo attr from ⟨hname, ho⟩),
      imp_iff_right (show qr.AppliesTo attr from ⟨hname, ho⟩), checkQryItem,
      if_neg fun h => h hname, if_neg fun h : _ ∧ _ => ho.elim h.1 h.2, hvalue]
    by_cases hkind : qr.binary = attr.binary
    · obtain ⟨o, ho, hcmp⟩ := @exists_attrvalCmp qr attr v qr.size hname hkind
      have hord : ∀ os, qr.Ordered attr qr.value qr.size os ↔ o ∈ os := by
        intro os
        rw [QueryRec.Ordered, hv, ho]
        constructor
        · rintro ⟨o', ho', heq⟩
          exact Option.some.inj heq ▸ ho'
        · exact fun ho' => ⟨o, ho', rfl⟩
      rw [hcmp, Exec.ok_bind, hop]
      cases hc : c.op with
      | EXISTS => exact iff_of_false (by rintro ⟨_, ⟨⟩, _⟩) fun h => h.1 rfl
      | EQUAL | UNEQUAL | LESS | GREATER =>
        refine iff_of_true ⟨_, rfl, ?_⟩ ⟨by decide, hkind⟩
        rw [QueryOp.Accepts, hord]
        cases o <;> decide
      | WITHIN =>
        obtain ⟨v2, hv2⟩ := hv2 hc
        obtain ⟨o2, ho2, hcmp2⟩ := @exists_attrvalCmp qr attr v2 qr.size2 hname hkind
        have hord2 : qr.Ordered attr qr.value2 qr.size2 [.lt, .eq] ↔ o2 ∈ [.lt, .eq] := by
          rw [QueryRec.Ordered, hv2, ho2]
          constructor
          · rintro ⟨o', ho', heq⟩
            exact Option.some.inj heq ▸ ho'
          · exact fun ho' => ⟨o2, ho', rfl⟩
        have hboth : (do
            let cmp2 ← qryCmp qr attr qr.value2 qr.size2
            return o ≠ .lt && cmp2 ≠ .gt : Exec Bool) = .ok (o ≠ .lt && o2 ≠ .gt) := by
          rw [hv2, hcmp2]
          rfl
        refine iff_of_true ⟨_, hboth, ?_⟩ ⟨by decide, hkind⟩
        rw [QueryOp.Accepts, hord, hord2]
        cases o <;> cases o2 <;> decide
    · rw [qryCmp_of_kinds hname hkind]
      exact iff_of_false (by rintro ⟨_, ⟨⟩, _⟩) fun h => hkind h.2
  · refine iff_of_true ⟨false, checkQryItem_of_not_appliesTo happ, ?_⟩ fun h => absurd h happ
    exact iff_of_false Bool.false_ne_true fun h => happ h.1

end Condition

/-! ## The conditions of a feed -/

section Feed

/-- The first of some values with the name of a condition meets it. -/
def MetIn (out : List Attrval) (qr : QueryRec) : Prop :=
  ∃ v, out.find? (·.name = qr.attr) = some v ∧ checkQryItem qr v = .ok true

/-- The conditions that the values that are given leave open. -/
def openConds (attrs : List Attrval) (qry : List QueryRec) : List QueryRec :=
  qry.filter (!arrives attrs ·)

/-- A condition is met by the first value of its name that is given, or else by the first
    one that is retrieved. -/
def MetByFirst (attrs out : List Attrval) (qr : QueryRec) : Prop :=
  ∃ v, ((attrs.find? (·.name = qr.attr)).or (out.find? (·.name = qr.attr))) = some v ∧
    checkQryItem qr v = .ok true

variable (getAttrs : Bytes → List Bytes → Exec (List Attrval)) (feed : Jpfeed) (job : Bytes)
  (attrs : List Attrval)

/-- What is retrieved for the conditions that are left open; nothing, if there is an
    error. -/
def retrieved : List Attrval :=
  match getAttrs job ((openConds attrs feed.qry).map (·.attr)) with
  | .ok out => out
  | .error _ => []

/-- The matcher returns, and tells whether every condition is met. -/
def MatchDecided : Prop :=
  ∃ b, isFeedMatching getAttrs feed job attrs = .ok b ∧
    (b = true ↔ ∀ qr ∈ feed.qry, MetByFirst attrs (retrieved getAttrs feed job attrs) qr)

/-- What was retrieved decides conditions: when there are fewer values than conditions,
    one is not met, and otherwise one is compared with a value that does not meet it, or
    each of them with one that does. -/
def Decisive (out : List Attrval) (left : List QueryRec) : Prop :=
  if out.length < left.length then ¬∀ qr ∈ left, MetIn out qr
  else left.allM (meetsArrived out) = .ok false ∨ ∀ qr ∈ left, MetIn out qr

/-- The matcher copes with what is given and retrieved: a value that is given does not
    meet its condition, or all do, the conditions that are left open stand before the
    others, and what is retrieved for them, if there are any, is decisive. -/
def Copes : Prop :=
  feed.qry.allM (meetsArrived attrs) = .ok false ∨
    feed.qry.allM (meetsArrived attrs) = .ok true ∧ LeftFirst attrs feed.qry ∧
      (openConds attrs feed.qry = [] ∨ ∃ out,
        getAttrs job ((openConds attrs feed.qry).map (·.attr)) = .ok out ∧
          Decisive out (openConds attrs feed.qry))

variable {getAttrs feed job attrs} {out : List Attrval} {left : List QueryRec} {qr : QueryRec} {b : Bool}

/-- What the matcher returns, whatever is retrieved: with an error, nothing that could be
    told. -/
theorem isFeedMatching_eq_ok_iff (hlen : feed.qry.length ≤ QUERY_MAX)
    (hnames : ∀ names out, getAttrs job names = .ok out → ∀ v ∈ out, v.name ∈ names) :
    isFeedMatching getAttrs feed job attrs = .ok b ↔
      feed.qry.allM (meetsArrived attrs) = .ok false ∧ b = false ∨
      feed.qry.allM (meetsArrived attrs) = .ok true ∧ LeftFirst attrs feed.qry ∧
        (openConds attrs feed.qry = [] ∧ b = true ∨ openConds attrs feed.qry ≠ [] ∧ ∃ out,
          getAttrs job ((openConds attrs feed.qry).map (·.attr)) = .ok out ∧
            if out.length < (openConds attrs feed.qry).length then b = false
            else (openConds attrs feed.qry).allM (meetsArrived out) = .ok b) := by
  have hnone := @arrivedMeetsAll_eq_none attrs feed.qry 0 (Nat.zero_le _)
  rw [Nat.sub_zero, List.take_of_length_le hlen] at hnone
  have hsome : ∀ qi, arrivedMeetsAll attrs 0 feed.qry = .ok (some qi) ↔
      feed.qry.allM (meetsArrived attrs) = .ok true ∧ qi = feed.qry.map (arrives attrs) := by
    intro qi
    rw [arrivedMeetsAll_eq_some, Nat.zero_add]
    exact and_congr_right fun _ => and_iff_right (.inr hlen)
  have hrest := @retrievedMeetAll_eq_ok_iff job attrs feed.qry b getAttrs hnames
  rw [isFeedMatching, Exec.bind_eq_ok]
  constructor
  · rintro ⟨_ | qi, hr, h⟩
    · exact .inl ⟨hnone.1 hr, (Except.ok.inj h).symm⟩
    · obtain ⟨hok, rfl⟩ := (hsome qi).1 hr
      exact .inr ⟨hok, hrest.1 h⟩
  · rintro (⟨hok, rfl⟩ | ⟨hok, h⟩)
    · exact ⟨none, hnone.2 hok, rfl⟩
    · exact ⟨some _, (hsome _).2 ⟨hok, rfl⟩, hrest.2 h⟩

theorem not_metIn (h : meetsArrived out qr = .ok false) : ¬MetIn out qr := by
  rintro ⟨v, hv, hmet⟩
  rw [meetsArrived, hv] at h
  cases h.symm.trans hmet

theorem meetsArrived_of_metIn (h : MetIn out qr) : meetsArrived out qr = .ok true := by
  obtain ⟨v, hv, hmet⟩ := h
  rw [meetsArrived, hv]
  exact hmet

/-- A value that is given decides its condition. -/
theorem metByFirst_of_arrives (harr : arrives attrs qr = true) :
    MetByFirst attrs out qr ↔ MetIn attrs qr := by
  obtain ⟨v, hv⟩ := arrives_eq_true.1 harr
  rw [MetByFirst, MetIn, hv, Option.some_or]

/-- A condition that is left open is decided by what is retrieved. -/
theorem metByFirst_of_open (harr : arrives attrs qr = false) :
    MetByFirst attrs out qr ↔ MetIn out qr := by
  rw [MetByFirst, MetIn, arrives_eq_false.1 harr, Option.none_or]

/-- When the values that are given meet their conditions, those that are left open
    decide. -/
theorem forall_metByFirst_iff (h : qry.allM (meetsArrived attrs) = .ok true) :
    (∀ qr ∈ qry, MetByFirst attrs out qr) ↔ ∀ qr ∈ openConds attrs qry, MetIn out qr := by
  rw [Exec.allM_eq_true] at h
  constructor
  · intro hall qr hqr
    obtain ⟨hmem, harr⟩ := List.mem_filter.1 hqr
    exact (metByFirst_of_open (by simpa using harr)).1 (hall qr hmem)
  · intro hall qr hqr
    cases harr : arrives attrs qr with
    | false => exact (metByFirst_of_open harr).2 (hall qr (List.mem_filter.2 ⟨hqr, by simp [harr]⟩))
    | true =>
      obtain ⟨v, hv⟩ := arrives_eq_true.1 harr
      have hmet := h qr hqr
      rw [meetsArrived, hv] at hmet
      exact (metByFirst_of_arrives harr).2 ⟨v, hv, hmet⟩

/-- The matcher decides whether every condition is met by the first value that is given,
    or else by the first that is retrieved, exactly when it copes with what is given and
    retrieved. -/
theorem matchDecided_iff (hlen : feed.qry.length ≤ QUERY_MAX)
    (hnames : ∀ names out, getAttrs job names = .ok out → ∀ v ∈ out, v.name ∈ names) :
    MatchDecided getAttrs feed job attrs ↔ Copes getAttrs feed job attrs := by
  have hret : ∀ out, getAttrs job ((openConds attrs feed.qry).map (·.attr)) = .ok out →
      retrieved getAttrs feed job attrs = out := by
    intro out hout
    rw [retrieved, hout]
  have hfalse : ∀ {out}, feed.qry.allM (meetsArrived attrs) = .ok false →
      ¬∀ qr ∈ feed.qry, MetByFirst attrs out qr := by
    intro out h hall
    obtain ⟨qr, hqr, hno⟩ := Exec.allM_eq_false h
    have harr : arrives attrs qr = true := by
      rw [meetsArrived] at hno
      rw [arrives_eq_true]
      cases hf : attrs.find? (·.name = qr.attr) with
      | none =>
        rw [hf] at hno
        cases hno
      | some v => exact ⟨v, rfl⟩
    exact not_metIn hno ((metByFirst_of_arrives harr).1 (hall qr hqr))
  simp only [MatchDecided, isFeedMatching_eq_ok_iff hlen hnames]
  constructor
  · rintro ⟨b, ⟨hno, rfl⟩ | ⟨hok, hfirst, ⟨hnil, rfl⟩ | ⟨hne, out, hout, h⟩⟩, hspec⟩
    · exact .inl hno
    · exact .inr ⟨hok, hfirst, .inl hnil⟩
    · refine .inr ⟨hok, hfirst, .inr ⟨out, hout, ?_⟩⟩
      rw [hret out hout, forall_metByFirst_iff hok] at hspec
      rw [Decisive]
      split_ifs at h ⊢ with hlt
      · exact fun hall => Bool.false_ne_true (h.symm.trans (hspec.2 hall))
      · cases b with
        | false => exact .inl h
        | true => exact .inr (hspec.1 rfl)
  · rintro (hno | ⟨hok, hfirst, hrest⟩)
    · exact ⟨false, .inl ⟨hno, rfl⟩, iff_of_false Bool.false_ne_true (hfalse hno)⟩
    · by_cases hnil : openConds attrs feed.qry = []
      · refine ⟨true, .inr ⟨hok, hfirst, .inl ⟨hnil, rfl⟩⟩, iff_of_true rfl ?_⟩
        rw [forall_metByFirst_iff hok, hnil]
        exact List.forall_mem_nil _
      · obtain ⟨out, hout, hdec⟩ := hrest.resolve_left hnil
        rw [hret out hout, forall_metByFirst_iff hok]
        rw [Decisive] at hdec
        by_cases hlt : out.length < (openConds attrs feed.qry).length
        · rw [if_pos hlt] at hdec
          refine ⟨false, .inr ⟨hok, hfirst, .inr ⟨hnil, out, hout, ?_⟩⟩,
            iff_of_false Bool.false_ne_true hdec⟩
          rw [if_pos hlt]
        · rw [if_neg hlt] at hdec
          rcases hdec with hno | hall
          · obtain ⟨qr, hqr, hmet⟩ := Exec.allM_eq_false hno
            refine ⟨false, .inr ⟨hok, hfirst, .inr ⟨hnil, out, hout, ?_⟩⟩,
              iff_of_false Bool.false_ne_true fun hall => not_metIn hmet (hall qr hqr)⟩
            rw [if_neg hlt, hno]
          · refine ⟨true, .inr ⟨hok, hfirst, .inr ⟨hnil, out, hout, ?_⟩⟩, iff_of_true rfl hall⟩
            rw [if_neg hlt, Exec.allM_eq_true]
            exact fun qr hqr => meetsArrived_of_metIn (hall qr hqr)

end Feed

/-! ## A string and some bytes -/

/-- The record of a comparison with a string. -/
def equalRec (attr value : Bytes) : QueryRec :=
  { QueryRec.zero attr with op := .EQUAL, value := some value }

/-- The condition that a tag is red. -/
def redCondition : PrimaryQuery := ⟨ascii "tag", .EQUAL, none, some (.string (ascii "red")), none⟩

theorem s2jpQuery_redCondition : s2jpQuery redCondition = .ok (equalRec (ascii "tag") (ascii "red")) :=
  rfl

/-- A string is compared with the string of a condition, … -/
theorem decided_iff_sample : Decided redCondition (equalRec (ascii "tag") (ascii "red"))
    (sampleTag false (ascii "blue")) :=
  (decided_iff s2jpQuery_redCondition).2 fun _ => ⟨by decide, rfl⟩

/-- … and with bytes the server stops. -/
theorem not_decided_sample : s2jpQuery redCondition = .ok (equalRec (ascii "tag") (ascii "red")) ∧
    ¬Decided redCondition (equalRec (ascii "tag") (ascii "red")) (sampleTag true [0]) := by
  refine ⟨rfl, fun ⟨b, hb, _⟩ => ?_⟩
  have hfault : checkQryItem (equalRec (ascii "tag") (ascii "red")) (sampleTag true [0]) =
      .error .fault := by
    decide +kernel
  cases hfault.symm.trans hb

/-! ## A tag that is given and one that is retrieved -/

/-- A feed with conditions on two tags. -/
def twoTagFeed (qry : List QueryRec) : Jpfeed := { bobFeed with qry }

/-- What is retrieved: a big job. -/
def bigJob (_ : Bytes) (names : List Bytes) : Exec (List Attrval) :=
  .ok (if ascii "size" ∈ names then [{ sampleTag false (ascii "big") with name := ascii "size" }] else [])

theorem name_of_bigJob (job : Bytes) : ∀ names out, bigJob job names = .ok out →
    ∀ v ∈ out, v.name ∈ names := by
  intro names out h v hv
  rw [bigJob] at h
  obtain rfl := Except.ok.inj h
  split_ifs at hv with hname
  · obtain rfl := List.mem_singleton.1 hv
    exact hname
  · cases hv

/-- When the condition on the tag that is retrieved stands first, the matcher decides, … -/
theorem matchDecided_iff_sample : MatchDecided bigJob
    (twoTagFeed [equalRec (ascii "size") (ascii "big"), equalRec (ascii "tag") (ascii "red")])
    (ascii "https://lb/job") [sampleTag false (ascii "red")] := by
  refine (matchDecided_iff (by decide) (name_of_bigJob _)).2 (.inr ⟨by decide +kernel, ?_, .inr ?_⟩)
  · rw [LeftFirst]
    decide +kernel
  · refine ⟨[{ sampleTag false (ascii "big") with name := ascii "size" }], by decide +kernel, ?_⟩
    rw [Decisive, if_neg (by decide +kernel)]
    refine .inr fun qr hqr => ⟨{ sampleTag false (ascii "big") with name := ascii "size" }, ?_⟩
    have hopen : openConds [sampleTag false (ascii "red")]
        [equalRec (ascii "size") (ascii "big"), equalRec (ascii "tag") (ascii "red")] =
          [equalRec (ascii "size") (ascii "big")] := by
      decide +kernel
    obtain rfl := List.mem_singleton.1 (hopen ▸ hqr)
    exact ⟨by decide +kernel, by decide +kernel⟩

/-- … and when it stands behind the other, its name is written outside the array. -/
theorem not_matchDecided_sample : ¬MatchDecided bigJob
    (twoTagFeed [equalRec (ascii "tag") (ascii "red"), equalRec (ascii "size") (ascii "big")])
    (ascii "https://lb/job") [sampleTag false (ascii "red")] := by
  rintro ⟨b, hb, -⟩
  have hfault : isFeedMatching bigJob
      (twoTagFeed [equalRec (ascii "tag") (ascii "red"), equalRec (ascii "size") (ascii "big")])
      (ascii "https://lb/job") [sampleTag false (ascii "red")] = .error .fault := by
    decide +kernel
  cases hfault.symm.trans hb

end JobProvenance
