import JobProvenance.Primary.Attrs
import JobProvenance.Primary.Conditions

/-!
# Feeding what arrives

When something arrives of a job, a slave compares it with the feeds it has loaded,
after the request is answered. A job that a feed has not got yet is sent with all
that the feed asks for, and marked; a job it has got is sent with what arrived.

* `isFeedMatching`: whether a job meets the conditions of a feed, which looks at one
  value of each attribute only (`isFeedMatching_eq_true`);
* `matchFeed`, `matchFeedMulti`: what is sent of a job, and of several;
* `matchAttrDeferred`, `matchAttrMultiDeferred`: for all feeds that ask for one of
  the attributes that arrived.
-/

namespace JobProvenance

/-- The conditions of a feed that there is room for. -/
def QUERY_MAX : ℕ := 100

/-- A result that is used also when there is an error, but is not stored then. -/
def Exec.stored {α : Type} : Exec α → Exec α
  | .error (.errno _) => .error .fault
  | r => r

theorem stored_eq_ok {α : Type} {x : Exec α} {a : α} : Exec.stored x = .ok a ↔ x = .ok a := by
  unfold Exec.stored
  split
  · exact iff_of_false nofun nofun
  · rfl

/-! ## Conditions -/

section Conditions

variable (getAttrs : Bytes → List Bytes → Exec (List Attrval))

/-- Whether the values that arrived meet a condition: they do, they do not tell, or they
    do not (`none`), and it is the first of its name that is looked at. -/
def arrivedMeets (attrs : List Attrval) (qr : QueryRec) : Exec (Option Bool) :=
  match attrs.find? (·.name = qr.attr) with
  | none => .ok (some false)
  | some v => do
    if ← checkQryItem qr v then return some true else return none

/-- For each condition whether the values that arrived meet it, unless one is not met. -/
def arrivedMeetsAll (attrs : List Attrval) : ℕ → List QueryRec → Exec (Option (List Bool))
  | _, [] => .ok (some [])
  | i, qr :: qry =>
    if i < QUERY_MAX then do
      match ← arrivedMeets attrs qr with
      | none => return none
      | some sat =>
        let qi ← arrivedMeetsAll attrs (i + 1) qry
        return qi.map (sat :: ·)
    else .error .fault

/-- The attributes of the conditions that are left; each is written behind the place
    its number wants, which is outside the array when one before it is not left. -/
def attrsLeft : List QueryRec → List Bool → Exec (List Bytes)
  | qr :: qry, false :: qi => do
    let attr ← attrsLeft qry qi
    return qr.attr :: attr
  | _ :: _, true :: qi => if qi.all id then .ok [] else .error .fault
  | _, _ => .ok []

/-- Whether values meet the conditions, from one of a number on; of a name without a
    value nothing is wanted, and behind the last value something is looked for. -/
def retrievedMeet (out : List Attrval) : ℕ → List QueryRec → Exec Bool
  | _, [] => .ok true
  | i, qr :: qry =>
    match out.find? (·.name = qr.attr) with
    | none => retrievedMeet out (i + 1) qry
    | some v => do
      if ← checkQryItem qr v then
        if i < out.length then retrievedMeet out (i + 1) qry else .error .fault
      else return false

/-- Whether a job of which something arrived meets the conditions of a feed. -/
def isFeedMatching (feed : Jpfeed) (job : Bytes) (attrs : List Attrval) : Exec Bool := do
  match ← arrivedMeetsAll attrs 0 feed.qry with
  | none => return false
  | some qi =>
    if qi.all id then return true
    else
      let attr ← attrsLeft feed.qry qi
      let out ← Exec.stored (getAttrs job attr)
      if out.length < attr.length then return false
      else retrievedMeet out 0 feed.qry

/-- All that a feed asks for of a job, and its owner. -/
def fullFeed (feed : Jpfeed) (job : Bytes) : Exec (List Attrval) := do
  let attrs ← elements feed.attrs
  getAttrs job (if GLITE_JP_ATTR_OWNER ∈ attrs then attrs else GLITE_JP_ATTR_OWNER :: attrs)

end Conditions

/-! ## The values that are looked at -/

section LookedAt

variable {env : Env} {s : PsState} {feed : Jpfeed} {job : Bytes} {attrs out : List Attrval}
  {qr : QueryRec} {qry : List QueryRec} {qi : List Bool} {i : ℕ}

/-- The value of an attribute that a condition is compared with: the first that arrived,
    and when none did, the first there is. -/
def lookedAt (env : Env) (s : PsState) (job : Bytes) (attrs : List Attrval) (name : Bytes) :
    Option Attrval :=
  (attrs.find? (·.name = name)).or (valuesOf env s job name).head?

/-- What it means that what arrived meets a condition or does not tell. -/
def Arrived (attrs : List Attrval) (qr : QueryRec) (sat : Bool) : Prop :=
  match attrs.find? (·.name = qr.attr) with
  | none => sat = false
  | some v => sat = true ∧ checkQryItem qr v = .ok true

theorem arrivedMeets_eq_ok {r : Option Bool} (h : arrivedMeets attrs qr = .ok r) :
    (∀ sat, r = some sat → Arrived attrs qr sat) ∧
      (r = none → ∃ v, attrs.find? (·.name = qr.attr) = some v ∧ checkQryItem qr v = .ok false) := by
  unfold arrivedMeets at h
  unfold Arrived
  cases hf : attrs.find? (·.name = qr.attr) with
  | none =>
    rw [hf] at h
    obtain rfl := Except.ok.inj h
    exact ⟨fun sat hs => (Option.some.inj hs).symm, nofun⟩
  | some v =>
    rw [hf] at h
    obtain ⟨meets, hm, h⟩ := Exec.bind_eq_ok.1 h
    cases meets with
    | true =>
      obtain rfl := Except.ok.inj h
      exact ⟨fun sat hs => ⟨(Option.some.inj hs).symm, hm⟩, nofun⟩
    | false =>
      obtain rfl := Except.ok.inj h
      exact ⟨nofun, fun _ => ⟨v, rfl, hm⟩⟩

/-- What arrived meets the conditions, does not tell, or does not meet one. -/
theorem arrivedMeetsAll_eq_ok {r : Option (List Bool)} (h : arrivedMeetsAll attrs i qry = .ok r) :
    (∀ qi, r = some qi → List.Forall₂ (Arrived attrs) qry qi) ∧
      (r = none → ∃ qr ∈ qry, ∃ v, attrs.find? (·.name = qr.attr) = some v ∧
        checkQryItem qr v = .ok false) := by
  induction qry generalizing i r with
  | nil =>
    obtain rfl := Except.ok.inj h
    exact ⟨fun qi hq => Option.some.inj hq ▸ .nil, nofun⟩
  | cons qr qry ih =>
    unfold arrivedMeetsAll at h
    split_ifs at h
    obtain ⟨m, hm, h⟩ := Exec.bind_eq_ok.1 h
    obtain ⟨hsome, hnone⟩ := arrivedMeets_eq_ok hm
    cases m with
    | none =>
      obtain rfl := Except.ok.inj h
      obtain ⟨v, hv, hc⟩ := hnone rfl
      exact ⟨nofun, fun _ => ⟨qr, List.mem_cons_self, v, hv, hc⟩⟩
    | some sat =>
      obtain ⟨r', hr', h⟩ := Exec.bind_eq_ok.1 h
      obtain rfl := Except.ok.inj h
      obtain ⟨ihsome, ihnone⟩ := ih hr'
      cases r' with
      | none =>
        obtain ⟨qr', hqr', hv⟩ := ihnone rfl
        exact ⟨nofun, fun _ => ⟨qr', List.mem_cons_of_mem _ hqr', hv⟩⟩
      | some qi' =>
        refine ⟨fun qi hq => ?_, nofun⟩
        exact Option.some.inj hq ▸ .cons (hsome sat rfl) (ihsome qi' rfl)

/-- When all are met, they are. -/
theorem arrived_of_all (h : List.Forall₂ (Arrived attrs) qry qi) (hall : qi.all id = true) :
    ∀ qr ∈ qry, Arrived attrs qr true := by
  intro qr hqr
  obtain ⟨sat, hsat, ha⟩ := (Exec.mem_of_forall₂ h).1 qr hqr
  exact (List.all_eq_true.1 hall sat hsat : sat = true) ▸ ha

/-- The conditions that are left stand before the others. -/
theorem attrsLeft_eq_ok {attr : List Bytes} (h : List.Forall₂ (Arrived attrs) qry qi)
    (ha : attrsLeft qry qi = .ok attr) : ∃ left met, qry = left ++ met ∧
      attr = left.map (·.attr) ∧ (∀ qr ∈ left, Arrived attrs qr false) ∧
      ∀ qr ∈ met, Arrived attrs qr true := by
  induction h generalizing attr with
  | nil =>
    obtain rfl := Except.ok.inj ha
    exact ⟨[], [], rfl, rfl, by simp, by simp⟩
  | @cons qr sat qry qi hqr hrest ih =>
    cases sat with
    | false =>
      obtain ⟨attr', ha', h⟩ := Exec.bind_eq_ok.1 ha
      obtain rfl := Except.ok.inj h
      obtain ⟨left, met, rfl, rfl, hleft, hmet⟩ := ih ha'
      exact ⟨qr :: left, met, rfl, rfl, List.forall_mem_cons.2 ⟨hqr, hleft⟩, hmet⟩
    | true =>
      unfold attrsLeft at ha
      split_ifs at ha with hall
      obtain rfl := Except.ok.inj ha
      exact ⟨[], qr :: qry, rfl, rfl, by simp,
        List.forall_mem_cons.2 ⟨hqr, arrived_of_all hrest hall⟩⟩

theorem retrievedMeet_eq_ok {b : Bool} (h : retrievedMeet out i qry = .ok b) : b = true ↔
    ∀ qr ∈ qry, ∀ v, out.find? (·.name = qr.attr) = some v → checkQryItem qr v = .ok true := by
  induction qry generalizing i with
  | nil =>
    obtain rfl := Except.ok.inj h
    simp
  | cons qr qry ih =>
    unfold retrievedMeet at h
    rw [List.forall_mem_cons]
    cases hf : out.find? (·.name = qr.attr) with
    | none =>
      rw [hf] at h
      rw [ih h]
      exact (and_iff_right fun v hv => by cases hv).symm
    | some v =>
      rw [hf] at h
      obtain ⟨meets, hm, h⟩ := Exec.bind_eq_ok.1 h
      cases meets with
      | true =>
        rw [if_pos rfl] at h
        split_ifs at h
        rw [ih h]
        refine (and_iff_right fun w hw => ?_).symm
        rwa [← Option.some.inj hw]
      | false =>
        obtain rfl := Except.ok.inj h
        refine iff_of_false Bool.false_ne_true fun hall => ?_
        cases hm.symm.trans (hall.1 v rfl)

theorem lookedAt_of_find? {v : Attrval} {name : Bytes}
    (h : attrs.find? (·.name = name) = some v) : lookedAt env s job attrs name = some v := by
  rw [lookedAt, h, Option.some_or]

theorem find?_of_not_arrived (h : Arrived attrs qr false) :
    attrs.find? (·.name = qr.attr) = none := by
  unfold Arrived at h
  split at h
  · assumption
  · cases h.1

/-- What arrived and meets a condition is what is looked at. -/
theorem Arrived.lookedAt (h : Arrived attrs qr true) :
    ∃ v, lookedAt env s job attrs qr.attr = some v ∧ checkQryItem qr v = .ok true := by
  unfold Arrived at h
  split at h
  · cases h
  · rename_i v hv
    exact ⟨v, lookedAt_of_find? hv, h.2⟩

/-- When a job has values for all conditions, one of each is looked at. -/
theorem isFeedMatching_eq_true {b : Bool}
    (h : isFeedMatching (getAttrs env s) feed job attrs = .ok b)
    (hv : ∀ qr ∈ feed.qry, valuesOf env s job qr.attr ≠ []) : b = true ↔
      ∀ qr ∈ feed.qry, ∃ v, lookedAt env s job attrs qr.attr = some v ∧
        checkQryItem qr v = .ok true := by
  obtain ⟨r, hr, h⟩ := Exec.bind_eq_ok.1 h
  obtain ⟨hsome, hnone⟩ := arrivedMeetsAll_eq_ok hr
  cases r with
  | none =>
    -- what arrived does not meet a condition
    obtain rfl := Except.ok.inj h
    obtain ⟨qr, hqr, v, hfind, hc⟩ := hnone rfl
    refine iff_of_false Bool.false_ne_true fun hall => ?_
    obtain ⟨w, hw, hc'⟩ := hall qr hqr
    rw [lookedAt_of_find? hfind] at hw
    rw [← Option.some.inj hw, hc] at hc'
    cases hc'
  | some qi =>
    have harr := hsome qi rfl
    dsimp only at h
    split_ifs at h with hall
    · obtain rfl := Except.ok.inj h
      exact iff_of_true rfl fun qr hqr => (arrived_of_all harr hall qr hqr).lookedAt
    · obtain ⟨attr, ha, h⟩ := Exec.bind_eq_ok.1 h
      obtain ⟨out, ho, h⟩ := Exec.bind_eq_ok.1 h
      have hout : getAttrs env s job attr = .ok out := by
        unfold Exec.stored at ho
        split at ho
        · cases ho
        · exact ho
      obtain ⟨left, met, hqry, rfl, hleft, hmet⟩ := attrsLeft_eq_ok harr ha
      -- every attribute that is asked for has a value
      have hlen : (left.map (·.attr)).length ≤ out.length := by
        refine length_le_of_getAttrs hout fun name hn => ?_
        obtain ⟨qr, hqr, rfl⟩ := List.mem_map.1 hn
        exact hv qr (by rw [hqry]; exact List.mem_append_left _ hqr)
      rw [if_neg (not_lt.2 hlen)] at h
      rw [retrievedMeet_eq_ok h, hqry, List.forall_mem_append, List.forall_mem_append]
      refine and_congr (forall₂_congr fun qr hqr => ?_) (iff_of_true (fun qr hqr v hfind => ?_)
        fun qr hqr => (hmet qr hqr).lookedAt)
      · have hfind := find?_getAttrs hout (List.mem_map_of_mem hqr)
        obtain ⟨v, vs, hvs⟩ := List.exists_cons_of_ne_nil
          (hv qr (by rw [hqry]; exact List.mem_append_left _ hqr))
        rw [lookedAt, find?_of_not_arrived (hleft qr hqr), Option.none_or, hfind, hvs,
          List.head?_cons]
        simp only [Option.some.injEq, forall_eq', exists_eq_left']
      · -- nothing of this name was retrieved
        obtain ⟨qr', hqr', hname⟩ :=
          List.mem_map.1 (name_of_getAttrs hout v (List.mem_of_find?_eq_some hfind))
        have hvname : v.name = qr.attr := by simpa using List.find?_some hfind
        have hnone := find?_of_not_arrived (hleft qr' hqr')
        rw [hname, hvname] at hnone
        have hsat := hmet qr hqr
        rw [Arrived, hnone] at hsat
        cases hsat

end LookedAt

/-! ## Sending -/

section Send

variable (env : Env)

/-- The owner of a job; it stays null when there is an error. -/
def ownerOf (s : PsState) (job : Bytes) : Exec (Option Bytes) :=
  match jobMetadata s.tables.jobs.rows s.tables.users.rows job GLITE_JP_ATTR_OWNER with
  | .ok v => .ok (some v.value)
  | .error (.errno _) => .ok none
  | .error e => .error e

/-- Feeds a job of which something arrived. -/
def matchFeed (feed : Jpfeed) (job : Bytes) (attrs : List Attrval) : Serving Unit := do
  let s ← get
  if ← isFeedMatching (getAttrs env s) feed job attrs then
    let fed ← Exec.stored (checkFed s.fed feed.id job)
    if fed = 0 then
      let a ← Exec.stored (fullFeed (getAttrs env s) feed job)
      let owner := (a.find? (·.name = GLITE_JP_ATTR_OWNER)).map (·.value)
      let ret ← singleFeed env.answers feed.id false feed.destination job owner a
      if ret = none then
        let _ ← setFed feed.id job
    else
      let owner ← ownerOf s job
      let _ ← singleFeed env.answers feed.id false feed.destination job owner attrs

/-- A job that is to be fed with others; the number of its marks may not be known. -/
structure MatchedJob where
  job : Bytes
  owner : Bytes
  attrs : List Attrval
  fed : Option ℕ

/-- The jobs that meet the conditions of a feed. That a job is not marked is asked of
    the array of the numbers, which is there, so each is treated as marked. -/
def matchedJobs (s : PsState) (feed : Jpfeed) : List (Bytes × List Attrval) → Exec (List MatchedJob)
  | [] => .ok []
  | (job, attrs) :: jobs => do
    if ← isFeedMatching (getAttrs env s) feed job attrs then
      let fed := (checkFed s.fed feed.id job).toOption
      let owner ← ownerOf s job
      let owner ← Exec.deref owner
      let matched ← matchedJobs s feed jobs
      return ⟨job, owner, attrs, fed⟩ :: matched
    else matchedJobs s feed jobs

/-- Feeds jobs of which something arrived, in one message, be it of no jobs. -/
def matchFeedMulti (feed : Jpfeed) (jobs : List (Bytes × List Attrval)) : Serving Unit := do
  let s ← get
  let matched ← matchedJobs env s feed jobs
  let ret ← multiFeed env.answers feed.id false matched.length feed.destination
    (matched.map (·.job)) (matched.map (·.owner)) (matched.map (·.attrs))
  if ret = none then
    matched.forM fun m => do
      let fed ← Exec.deref m.fed
      if fed ≠ 0 then
        let _ ← setFed feed.id m.job

/-! ## Deferred actions -/

/-- The copy of a value that is kept until the request is answered. -/
def keepAttr (attr : Attrval) : Exec Attrval := do
  let value ← strdupValue attr.binary attr.value
  return { attr with value }

/-- What is kept of something that arrived. -/
def matchAttr (attrs : List Attrval) : Exec (List Attrval) := attrs.mapM keepAttr

/-- What is kept of something that arrived of several jobs: of no jobs the null pointer is
    read, and behind no values the end is written where there is no room. -/
def matchAttrMulti (jobs : List (Bytes × List Attrval)) : Exec (List (Bytes × List Attrval)) := do
  let jobs ← elements jobs
  jobs.mapM fun (job, attrs) => do
    let attrs ← elements attrs
    let attrs ← attrs.mapM keepAttr
    return (job, attrs.map fun v => { v with originDetail := none })

/-- Whether a feed asks for something that arrived. -/
def asksFor (names : List Bytes) (attrs : List Attrval) : Bool :=
  names.any fun name => attrs.any (·.name = name)

/-- Feeds a job of which something arrived to the feeds that ask for it. -/
def matchAttrDeferred (feeds : List Jpfeed) (job : Bytes) (attrs : List Attrval) : Serving Unit :=
  feeds.forM fun f => do
    let names ← elements f.attrs
    if asksFor names attrs then matchFeed env f job attrs

/-- Feeds several jobs of which something arrived to the feeds that ask for some of it. -/
def matchAttrMultiDeferred (feeds : List Jpfeed) (jobs : List (Bytes × List Attrval)) :
    Serving Unit :=
  feeds.forM fun f => do
    let names ← elements f.attrs
    if names.any fun name => jobs.any fun j => j.2.any (·.name = name) then matchFeedMulti env f jobs

end Send

end JobProvenance
