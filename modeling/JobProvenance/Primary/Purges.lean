import JobProvenance.Primary.FeedTable

/-!
# Purges

A purge deletes the marks of the feeds it selected, and then the feeds that have
expired by then: nothing makes these the same. They are when, as long as a purge
is in progress, no feed it selected is refreshed or stored anew, no other one gets
to expire before the purge started, no job is marked for a feed whose marks are
deleted already, and no statement of the purge is refused (`PurgeSafe`).

* `PurgesKept`: what such runs keep, also in the midst of purges;
* `consistent_of_reachable`: when no purge is in progress, the feeds have all their
  marks, and what was purged has none;
* `not_consistent_sample`: a feed that is refreshed during a purge loses its marks.
-/

namespace JobProvenance

variable (escape str2md5base64 : Bytes → Bytes) (readsAs : Bytes → Option (FeedsRow → Bool))

/-- A purge is in progress. -/
def InProgress (s : FeedState) (q : Purge) : Prop := .next (.purge q) ∈ s.calls

/-- The feeds a purge has selected. -/
def Purge.selected (q : Purge) : List Bytes := q.done ++ q.left

/-- When no purge is in progress, the feeds have all the marks that were ever set,
    and the feeds that were purged have none. -/
def Consistent (s : FeedState) : Prop :=
  (∀ q, ¬InProgress s q) →
    (∀ r ∈ s.feeds.rows, ∀ m ∈ s.marked, m.feedid = r.feedid → m ∈ s.fed.rows) ∧
      ∀ m ∈ s.fed.rows, m.feedid ∉ s.purged

/-- The statement does no harm to the purges in progress, and brings back no feed
    that was purged. -/
def FeedProc.Safe (s : FeedState) (now : ℤ) (ok : Bool) : FeedProc → Prop
  | .storeFeed feed => feed.id ∉ s.purged ∧
      ∀ q, InProgress s q → feed.id ∉ q.selected ∧ q.expires ≤ feed.expires
  | .refreshStored id | .refreshFeed id => ∀ q, InProgress s q → ∀ cond, readsAs id = some cond →
      ∀ r ∈ s.feeds.rows, cond r = true → r.feedid ∉ q.selected ∧ q.expires ≤ now + FEED_TTL
  | .setFed row => row.feedid ∉ s.purged ∧ ∀ q, InProgress s q → row.feedid ∉ q.done
  | .selectExpired => True
  | .purge _ => ok = true

/-- The statement a call is at. -/
def FeedOutcome.proc : FeedOutcome → Option FeedProc
  | .next p => some p
  | _ => none

/-- A step that executes such a statement, or starts a call. -/
def PurgeSafe (s : FeedState) : FeedAction → Prop
  | .exec i now ok => ∀ o ∈ s.calls[i]?, ∀ p ∈ o.proc, p.Safe readsAs s now ok
  | .feedIndex .. | .feedIndexRefresh _ | .startSlave | .mark .. => True

/-- What holds of a purge in progress: it has selected what has expired, and the
    feeds whose marks it has deleted have none. -/
structure Purge.Kept (s : FeedState) (q : Purge) : Prop where
  covered : ∀ r ∈ s.feeds.rows, r.expires < q.expires → r.feedid ∈ q.selected
  expired : ∀ r ∈ s.feeds.rows, r.feedid ∈ q.selected → r.expires < q.expires
  found : ∀ id ∈ q.selected, id ∈ s.purged ∨ s.HasFeed id
  unmarked : ∀ m ∈ s.fed.rows, m.feedid ∉ q.done

/-- What holds in the midst of purges: a mark that is lost is one of a feed that was
    purged or is about to be. -/
structure PurgesKept (s : FeedState) : Prop where
  purges : ∀ q, InProgress s q → q.Kept s
  gone : ∀ id ∈ s.purged, ¬s.HasFeed id
  forgotten : ∀ m ∈ s.fed.rows, m.feedid ∉ s.purged
  marks : ∀ m ∈ s.marked, m ∈ s.fed.rows ∨ m.feedid ∈ s.purged ∨
    ∃ q, InProgress s q ∧ m.feedid ∈ q.done

section Kept

variable {escape str2md5base64 readsAs} {s s' : FeedState} {a : FeedAction} {i : ℕ} {t : FeedTables}
  {p : FeedProc} {o : FeedOutcome} {q : Purge} {now : ℤ} {ok : Bool}

/-- What is kept is enough. -/
theorem PurgesKept.consistent (hs : PurgesKept s) : Consistent s := by
  intro hno
  refine ⟨fun r hr m hm hid => ?_, hs.forgotten⟩
  obtain hm | hm | ⟨q, hq, -⟩ := hs.marks m hm
  · exact hm
  · exact absurd ⟨r, hr, hid.symm⟩ (hs.gone _ hm)
  · exact absurd hq (hno q)

/-- A purge in progress after a step was so before, or is what the call got to. -/
theorem inProgress_advance (h : InProgress (s.advance i t o) q) :
    InProgress s q ∨ o = .next (.purge q) :=
  (List.mem_or_eq_of_mem_set h).imp_right Eq.symm

/-- A purge in progress goes on being so, unless it is the call that is executed. -/
theorem InProgress.advance (h : InProgress s q) (hi : s.calls[i]? = some (.next p)) :
    InProgress (s.advance i t o) q ∨ p = .purge q := by
  obtain ⟨j, hj⟩ := List.mem_iff_getElem?.1 h
  by_cases hij : i = j
  · subst hij
    exact .inr (by simpa [hi] using hj)
  · refine .inl (List.mem_of_getElem? (i := j) ?_)
    rw [FeedState.advance, List.getElem?_set_ne hij, hj]

/-- What the call got to is in progress. -/
theorem inProgress_self (hi : s.calls[i]? = some (.next p)) :
    InProgress (s.advance i t (.next (.purge q))) q :=
  List.mem_iff_getElem?.2 ⟨i, List.getElem?_set_self (List.getElem?_eq_some_iff.1 hi).1⟩

theorem mem_purged_advance {id : Bytes} : id ∈ (s.advance i t o).purged ↔
    id ∈ s.purged ∨ s.HasFeed id ∧ ¬t.HasFeed id := by
  simp [FeedState.advance, FeedTables.HasFeed]

theorem mem_marked_advance {m : FedRow} : m ∈ (s.advance i t o).marked ↔
    m ∈ s.marked ∨ m ∈ t.fed.rows ∧ m ∉ s.fed.rows := by
  simp [FeedState.advance]

/-- A feed that was found is still there, or is purged now. -/
theorem found_advance {id : Bytes} (h : id ∈ s.purged ∨ s.HasFeed id) :
    id ∈ (s.advance i t o).purged ∨ t.HasFeed id := by
  rw [mem_purged_advance]
  by_cases ht : t.HasFeed id
  · exact .inr ht
  · exact .inl (h.imp_right fun hs => ⟨hs, ht⟩)

/-- A safe statement keeps what holds of a purge in progress. -/
theorem Purge.Kept.advance (hq : q.Kept s) (hprog : InProgress s q)
    (hsafe : p.Safe readsAs s now ok)
    (heff : FeedEffect escape readsAs now ok s.toFeedTables p t o) : q.Kept (s.advance i t o) := by
  have hfound : ∀ id ∈ q.selected, id ∈ (s.advance i t o).purged ∨ t.HasFeed id :=
    fun id hid => found_advance (hq.found id hid)
  cases heff with
  | none | select => exact ⟨hq.covered, hq.expired, hfound, hq.unmarked⟩
  | @store feed row feeds _ _ _ hid hexp _ hrows =>
    obtain ⟨-, hsafe⟩ := hsafe
    obtain ⟨hnew, hle⟩ := hsafe q hprog
    refine ⟨fun r hr hlt => ?_, fun r hr hsel => ?_, hfound, hq.unmarked⟩ <;>
      rcases List.mem_append.1 (hrows ▸ hr) with hr | hr
    · exact hq.covered r hr hlt
    · obtain rfl := List.mem_singleton.1 hr
      exact absurd hlt (not_lt.2 (hexp ▸ hle))
    · exact hq.expired r hr hsel
    · obtain rfl := List.mem_singleton.1 hr
      exact absurd (hid ▸ hsel) hnew
  | @refresh p id cond _ hp hcond =>
    have hsafe : ∀ r ∈ s.feeds.rows, cond r = true →
        r.feedid ∉ q.selected ∧ q.expires ≤ now + FEED_TTL := by
      rcases hp with rfl | rfl <;> exact hsafe q hprog cond hcond
    refine ⟨fun r' hr' hlt => ?_, fun r' hr' hsel => ?_, hfound, hq.unmarked⟩ <;>
      obtain ⟨r, hr, rfl⟩ := mem_refreshRows.1 hr'
    · rw [feedid_refreshRow]
      by_cases hc : cond r = true
      · rw [refreshRow, if_pos hc] at hlt
        exact absurd hlt (not_lt.2 (hsafe r hr hc).2)
      · rw [refreshRow, if_neg hc] at hlt
        exact hq.covered r hr hlt
    · rw [feedid_refreshRow] at hsel
      rw [refreshRow, if_neg fun hc => (hsafe r hr hc).1 hsel]
      exact hq.expired r hr hsel
  | @mark row fed _ _ hrows =>
    refine ⟨hq.covered, hq.expired, hfound, fun m hm => ?_⟩
    rcases List.mem_append.1 (hrows ▸ hm) with hm | hm
    · exact hq.unmarked m hm
    · exact List.mem_singleton.1 hm ▸ hsafe.2 q hprog
  | deleteMarks =>
    exact ⟨hq.covered, hq.expired, hfound, fun m hm => hq.unmarked m (Table.mem_delete.1 hm).1⟩
  | deleteFeeds =>
    exact ⟨fun r hr => hq.covered r (Table.mem_delete.1 hr).1,
      fun r hr => hq.expired r (Table.mem_delete.1 hr).1, hfound, hq.unmarked⟩

/-- A purge that starts, or goes on. -/
theorem Purge.Kept.of_effect (hs : PurgesKept s) (hi : s.calls[i]? = some (.next p))
    (heff : FeedEffect escape readsAs now ok s.toFeedTables p t (.next (.purge q))) :
    q.Kept (s.advance i t (.next (.purge q))) := by
  cases heff with
  | none h | store _ _ _ _ _ _ h | refresh _ _ h | mark _ _ h => cases h
  | select =>
    refine ⟨fun r hr hlt => ?_, fun r hr hsel => ?_, fun id hid => .inr ?_, by simp⟩
    · exact List.mem_map.2 ⟨r, List.mem_filter.2 ⟨hr, decide_eq_true hlt⟩, rfl⟩
    · obtain ⟨r', hr', hid⟩ := List.mem_map.1 hsel
      obtain ⟨hr', hlt⟩ := List.mem_filter.1 hr'
      obtain rfl := Table.eq_of_clash hr' hr hid
      exact of_decide_eq_true hlt
    · obtain ⟨r, hr, hid⟩ := List.mem_map.1 hid
      exact ⟨r, (List.mem_filter.1 hr).1, hid⟩
  | @deleteMarks q feed left hleft =>
    have hq := hs.purges q (List.mem_of_getElem? hi)
    have hsel : ∀ id, id ∈ Purge.selected { q with done := q.done ++ [feed], left } ↔
        id ∈ q.selected := by
      simp [Purge.selected, hleft]
    refine ⟨fun r hr hlt => (hsel _).2 (hq.covered r hr hlt),
      fun r hr hid => hq.expired r hr ((hsel _).1 hid),
      fun id hid => found_advance (hq.found id ((hsel id).1 hid)), fun m hm hdone => ?_⟩
    obtain ⟨hm, hne⟩ := Table.mem_delete.1 hm
    rcases List.mem_append.1 hdone with hdone | hdone
    · exact hq.unmarked m hm hdone
    · exact of_decide_eq_false hne (List.mem_singleton.1 hdone)

/-- The marks after a statement. -/
theorem FeedEffect.mem_fed (heff : FeedEffect escape readsAs now ok s.toFeedTables p t o) {m : FedRow}
    (hm : m ∈ t.fed.rows) : m ∈ s.fed.rows ∨ p = .setFed m := by
  cases heff with
  | none | store | refresh | select | deleteFeeds => exact .inl hm
  | mark _ hrows =>
    rcases List.mem_append.1 (hrows ▸ hm) with hm | hm
    · exact .inl hm
    · exact .inr (List.mem_singleton.1 hm ▸ rfl)
  | deleteMarks => exact .inl (Table.mem_delete.1 hm).1

/-- A mark is lost when the marks of its feed are deleted. -/
theorem FeedEffect.fed_kept (heff : FeedEffect escape readsAs now ok s.toFeedTables p t o) {m : FedRow}
    (hm : m ∈ s.fed.rows) : m ∈ t.fed.rows ∨ ∃ q : Purge, o = .next (.purge q) ∧ m.feedid ∈ q.done := by
  cases heff with
  | none | store | refresh | select | deleteFeeds => exact .inl hm
  | mark _ hrows => exact .inl (hrows ▸ List.mem_append_left _ hm)
  | @deleteMarks q feed left =>
    by_cases hid : m.feedid = feed
    · exact .inr ⟨_, rfl, by simp [hid]⟩
    · exact .inl (Table.mem_delete.2 ⟨hm, decide_eq_false hid⟩)

/-- A purge goes on with the feeds whose marks it has deleted, until it purges them. -/
theorem Purge.Kept.purged_or_done (hq : q.Kept s) (hok : ok = true)
    (heff : FeedEffect escape readsAs now ok s.toFeedTables (.purge q) t o) {id : Bytes}
    (hdone : id ∈ q.done) : id ∈ (s.advance i t o).purged ∨
      ∃ q' : Purge, o = .next (.purge q') ∧ id ∈ q'.done := by
  cases heff with
  | none _ hidle => exact absurd rfl ((hidle hok).1 q)
  | refresh hp => rcases hp with hp | hp <;> cases hp
  | deleteMarks => exact .inr ⟨_, rfl, List.mem_append_left _ hdone⟩
  | deleteFeeds =>
    refine .inl (mem_purged_advance.2 ?_)
    have hsel : id ∈ q.selected := List.mem_append_left _ hdone
    refine (hq.found id hsel).imp_right fun hhas => ⟨hhas, ?_⟩
    rintro ⟨r, hr, rfl⟩
    obtain ⟨hr, hlt⟩ := Table.mem_delete.1 hr
    exact of_decide_eq_false hlt (hq.expired r hr hsel)

/-- A safe statement keeps what holds in the midst of purges. -/
theorem PurgesKept.advance (hs : PurgesKept s) (hi : s.calls[i]? = some (.next p))
    (hsafe : p.Safe readsAs s now ok)
    (heff : FeedEffect escape readsAs now ok s.toFeedTables p t o) :
    PurgesKept (s.advance i t o) := by
  refine ⟨fun q hq => ?_, fun id hid => ?_, fun m hm hid => ?_, fun m hm => ?_⟩
  · obtain hq | rfl := inProgress_advance hq
    · exact (hs.purges q hq).advance hq hsafe heff
    · exact .of_effect hs hi heff
  · obtain hid | ⟨-, hno⟩ := mem_purged_advance.1 hid
    · intro ht
      obtain ⟨hhas, -⟩ | ⟨-, hstores⟩ := heff.hasFeed.1 ht
      · exact hs.gone id hid hhas
      · cases p with
        | storeFeed feed => exact hsafe.1 (hstores.1 ▸ hid)
        | _ => exact hstores
    · exact hno
  · obtain hid | ⟨hhas, hno⟩ := mem_purged_advance.1 hid
    · obtain hm | rfl := heff.mem_fed hm
      · exact hs.forgotten m hm hid
      · exact hsafe.1 hid
    · have hpurges : p.Purges s.toFeedTables m.feedid := by
        by_contra h
        exact hno (heff.hasFeed.2 (.inl ⟨hhas, fun hp => h hp.2⟩))
      obtain hm | rfl := heff.mem_fed hm
      · cases p with
        | purge q =>
          obtain ⟨hleft, r, hr, hid, hlt⟩ := hpurges
          have hq := hs.purges q (List.mem_of_getElem? hi)
          -- it has selected the feed, and deleted the marks of all it selected
          have hsel := hq.covered r hr hlt
          rw [Purge.selected, hleft, List.append_nil, hid] at hsel
          exact hq.unmarked m hm hsel
        | _ => exact hpurges
      · exact hpurges
  · obtain hm | ⟨hm, -⟩ := mem_marked_advance.1 hm
    · obtain hm | hm | ⟨q, hq, hdone⟩ := hs.marks m hm
      · obtain hm | ⟨q, rfl, hdone⟩ := heff.fed_kept hm
        · exact .inl hm
        · exact .inr (.inr ⟨q, inProgress_self hi, hdone⟩)
      · exact .inr (.inl (mem_purged_advance.2 (.inl hm)))
      · obtain hq' | rfl := hq.advance (t := t) (o := o) hi
        · exact .inr (.inr ⟨q, hq', hdone⟩)
        · obtain hid | ⟨q', rfl, hdone⟩ := (hs.purges q hq).purged_or_done hsafe heff hdone
          · exact .inr (.inl hid)
          · exact .inr (.inr ⟨q', inProgress_self hi, hdone⟩)
    · exact .inl hm

/-- So does a step that is safe. -/
theorem PurgesKept.step (hs : PurgesKept s) (ha : PurgeSafe readsAs s a)
    (hst : (feedSystem escape readsAs str2md5base64).step s a s') : PurgesKept s' := by
  obtain ⟨i, now, ok, p, rfl, hi, rfl⟩ | ⟨-, calls, rfl, hnew, -⟩ := feedStep_cases hst
  · exact hs.advance hi (ha _ hi p rfl) execFeeds_effect
  · -- the calls that start are no purges
    have hprog : ∀ q, InProgress (s.start calls) q ↔ InProgress s q := fun q =>
      List.mem_append.trans (or_iff_left (hnew q))
    refine ⟨fun q hq => ?_, hs.gone, hs.forgotten, fun m hm => ?_⟩
    · obtain ⟨h₁, h₂, h₃, h₄⟩ := hs.purges q ((hprog q).1 hq)
      exact ⟨h₁, h₂, h₃, h₄⟩
    · simp only [hprog]
      exact hs.marks m hm

/-- In a run whose steps are safe, when no purge is in progress, the feeds have all
    their marks, and what was purged has none. -/
theorem consistent_of_reachable
    (hs : (feedSystem escape readsAs str2md5base64).Reachable (PurgeSafe readsAs) s) :
    Consistent s := by
  refine PurgesKept.consistent (hs.invariant ?_ fun s a t hs ha hst => hs.step ha hst)
  rintro s rfl
  exact ⟨by simp [InProgress], by simp, by simp, by simp⟩

end Kept

/-! ## A refresh in the midst of a purge -/

instance (s : FeedState) (P : Purge → Prop) [DecidablePred P] :
    Decidable (∀ q, InProgress s q → P q) :=
  decidable_of_iff (∀ o ∈ s.calls, ∀ q ∈ o.purge, P q) <| by
    constructor
    · exact fun h q hq => h _ hq q rfl
    · intro h o ho q hq
      cases o with
      | next p =>
        cases p with
        | purge q' => exact Option.some.inj hq ▸ h q' ho
        | _ => cases hq
      | _ => cases hq

instance (s : FeedState) (now : ℤ) (ok : Bool) : DecidablePred (FeedProc.Safe sampleReads s now ok)
  | .storeFeed _ | .setFed _ => inferInstanceAs (Decidable (_ ∧ _))
  | .refreshStored id | .refreshFeed id =>
    decidable_of_iff (∀ q, InProgress s q → ∀ r ∈ s.feeds.rows, r.feedid = id →
      r.feedid ∉ q.selected ∧ q.expires ≤ now + FEED_TTL) <| by
        simp [FeedProc.Safe, sampleReads]
  | .selectExpired => .isTrue trivial
  | .purge _ => inferInstanceAs (Decidable (_ = _))

instance (s : FeedState) : DecidablePred (PurgeSafe sampleReads s)
  | .exec i _ _ => inferInstanceAs (Decidable (∀ o ∈ s.calls[i]?, ∀ p ∈ o.proc, _))
  | .feedIndex .. | .feedIndexRefresh _ | .startSlave | .mark .. => .isTrue trivial

/-- A feed is stored, a job is marked for it, and it expires while a slave starts. -/
def beginPurge : List FeedAction :=
  [.feedIndex 0 [] (sampleRequest true), .exec 0 0 true, .exec 0 0 true,
    .mark (ascii "feed") sampleJob.dgJobid, .exec 1 0 true, .startSlave, .exec 2 400 true]

/-- The purge goes on to its end. -/
def endPurge : List FeedAction := [.exec 2 400 true, .exec 2 400 true]

/-- The feed is refreshed before that. -/
def refreshInPurge : List FeedAction := [.feedIndexRefresh (ascii "feed"), .exec 3 400 true]

theorem purge_run : ((beginPurge ++ endPurge).foldlM (fun s a =>
    if PurgeSafe sampleReads s a then feedStep id sampleReads sampleId s a else none) noFeeds).any
    (fun s => decide (s.purged = [ascii "feed"])) = true := by
  decide +kernel

theorem refreshInPurge_run : ((beginPurge ++ refreshInPurge ++ endPurge).foldlM (fun s a =>
    if System.Always s a then feedStep id sampleReads sampleId s a else none) noFeeds).any
    (fun s => decide ((∀ o ∈ s.calls, o.purge = none) ∧ s.fed.rows = [] ∧ s.marked ≠ [] ∧
      ∃ r ∈ s.feeds.rows, ∀ m ∈ s.marked, m.feedid = r.feedid)) = true := by
  decide +kernel

/-- A feed that has expired is purged with its marks. -/
theorem consistent_of_reachable_sample : ∃ s, s.purged = [ascii "feed"] ∧ Consistent s := by
  obtain ⟨s, hrun, hs⟩ := Option.any_eq_true _ _ |>.1 purge_run
  exact ⟨s, of_decide_eq_true hs,
    consistent_of_reachable ⟨_, rfl, .of_foldlM (fun _ _ _ h => h) hrun⟩⟩

/-- A feed that is refreshed in the midst of a purge stays, without its marks. -/
theorem not_consistent_sample : ∃ s,
    (feedSystem id sampleReads sampleId).Reachable System.Always s ∧ ¬Consistent s := by
  obtain ⟨s, hrun, hs⟩ := Option.any_eq_true _ _ |>.1 refreshInPurge_run
  obtain ⟨hno, hfed, hne, r, hr, hid⟩ := of_decide_eq_true hs
  refine ⟨s, ⟨_, rfl, .of_foldlM (fun _ _ _ h => h) hrun⟩, fun h => ?_⟩
  obtain ⟨m, hm⟩ := List.exists_mem_of_ne_nil _ hne
  have hmem := (h fun q hq => Option.some_ne_none _ (hno _ hq)).1 r hr m hm (hid m hm)
  rw [hfed] at hmem
  cases hmem

end JobProvenance
