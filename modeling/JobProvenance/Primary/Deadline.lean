import JobProvenance.Primary.Upload

/-!
# Deadlines of uploads

An upload that is started has a deadline, but a commit does not look at it. The
rows of uploads that have expired are deleted when an upload is started, those of
the same job only; so a commit that comes too late is refused when an upload for
the job was started in the meantime, and only then.

* `mem_execStmt`, `not_clash_execStmt`: what a statement does to a file that is
  being uploaded, unless it is about this file;
* `commit_cases`: when a commit is accepted, early or late;
* `late_commit_sample`: one that is after the deadline.
-/

namespace JobProvenance

variable (config : Config) (md5 : Bytes → Bytes)

/-- A statement about the file of a row itself: it commits it, or stores it anew, unless
    the key of the file is taken. -/
def Proc.IsAbout (t : Tables) (f : FileRow) : Proc → Prop
  | .commitFile jobid filename _ => jobid = f.jobid ∧ filename = f.filename
  | .insertFile row => row.Clash f ∧ t.files.insert row ≠ none
  | _ => False

/-- Nobody commits a file, or starts another upload of it with success. -/
def LeftAlone (f : FileRow) (s : UploadState) (a : UploadAction) : Prop :=
  ∀ i now p, a = .exec i now → s.calls[i]? = some (.next p) → ¬p.IsAbout s.tables f

/-- A step that starts an upload for the job of a file, after the deadline of the
    file: it deletes what has expired. -/
def Expires (f : FileRow) (s : UploadState) (a : UploadAction) : Prop :=
  ∃ i now row, a = .exec i now ∧ s.calls[i]? = some (.next (.deleteExpired row)) ∧
    row.jobid = f.jobid ∧ f.expired now = true

/-- In a run that leaves a file alone an upload for its job is started after the
    deadline of the file. -/
def ExpiredBetween (f : FileRow) (s t : UploadState) : Prop :=
  ∃ u a v, (uploadSystem config md5).Steps (LeftAlone f) s u ∧ LeftAlone f u a ∧ Expires f u a ∧
    (uploadSystem config md5).step u a v ∧ (uploadSystem config md5).Steps (LeftAlone f) v t

section Statements

variable {config md5} {t : Tables} {f g : FileRow} {p : Proc} {now : ℤ} {s s' : UploadState}
  {a : UploadAction}

/-- A statement that is not about a file leaves it there, or deletes it because it
    has expired. -/
theorem mem_execStmt (hf : f ∈ t.files.rows) (hp : ¬p.IsAbout t f)
    (hd : ∀ row, p = .deleteExpired row → ¬(row.jobid = f.jobid ∧ f.expired now = true)) :
    f ∈ (execStmt config md5 now t p).1.files.rows := by
  cases p with
  | storeOwner row owner => exact hf
  | storePeer row peername => exact hf
  | insertJob row =>
    simp only [execStmt]
    split <;> exact hf
  | selectJob ju cls name peername =>
    simp only [execStmt]
    split <;> exact hf
  | selectUpload destination peername =>
    simp only [execStmt]
    split
    · exact hf
    · split_ifs <;> exact hf
  | deleteExpired row =>
    have hnot := hd row rfl
    refine Table.mem_delete.2 ⟨hf, ?_⟩
    rw [decide_eq_false_iff_not]
    exact fun h => hnot ⟨h.1.symm, h.2⟩
  | insertFile row =>
    simp only [execStmt]
    split
    · rename_i files hi
      rw [(Table.insert_eq_some.1 hi).2]
      exact List.mem_append_left _ hf
    · exact hf
  | commitFile jobid filename peername =>
    refine mem_commitRows.2 ⟨f, hf, if_neg fun h => hp ⟨h.1.symm, h.2.symm⟩⟩

/-- A statement that is not about a file does not bring it back. -/
theorem not_clash_execStmt (hf : ∀ g ∈ t.files.rows, ¬g.Clash f) (hp : ¬p.IsAbout t f) :
    ∀ g ∈ (execStmt config md5 now t p).1.files.rows, ¬g.Clash f := by
  cases p with
  | storeOwner row owner => exact hf
  | storePeer row peername => exact hf
  | insertJob row =>
    simp only [execStmt]
    split <;> exact hf
  | selectJob ju cls name peername =>
    simp only [execStmt]
    split <;> exact hf
  | selectUpload destination peername =>
    simp only [execStmt]
    split
    · exact hf
    · split_ifs <;> exact hf
  | deleteExpired row => exact fun g hg => hf g (Table.mem_delete.1 hg).1
  | insertFile row =>
    simp only [execStmt]
    split
    · rename_i files hi
      rw [(Table.insert_eq_some.1 hi).2]
      intro g hg
      rcases List.mem_append.1 hg with hg | hg
      · exact hf g hg
      · obtain rfl := List.mem_singleton.1 hg
        exact fun hc => hp ⟨hc, by rw [hi]; exact Option.some_ne_none _⟩
    · exact hf
  | commitFile jobid filename peername =>
    intro g hg
    obtain ⟨g', hg', rfl⟩ := mem_commitRows.1 hg
    obtain ⟨hj, hn, -⟩ := commitRow_key jobid filename g'
    exact fun hc => hf g' hg' ⟨hj.symm.trans hc.1, hn.symm.trans hc.2⟩

/-- A step that leaves a file alone leaves it there, or is one that expires it. -/
theorem mem_uploadStep (hst : (uploadSystem config md5).step s a s') (ha : LeftAlone f s a)
    (hf : f ∈ s.tables.files.rows) : f ∈ s'.tables.files.rows ∨ Expires f s a := by
  obtain ⟨i, now, p, rfl, hi, rfl⟩ | ⟨request, outcome, -, -, rfl⟩ | ⟨request, ret, -, rfl⟩ |
      ⟨i, ret, -, rfl⟩ :=
    uploadStep_cases hst
  · by_cases hd : Expires f s (.exec i now)
    · exact .inr hd
    · refine .inl (mem_execStmt hf (ha i now p rfl hi) fun row hp hrow => hd ?_)
      exact ⟨i, now, row, rfl, hp ▸ hi, hrow⟩
  all_goals exact .inl hf

/-- One that expires it deletes it. -/
theorem Expires.not_clash (hst : (uploadSystem config md5).step s a s') (ha : Expires f s a)
    (hf : f ∈ s.tables.files.rows) : ∀ g ∈ s'.tables.files.rows, ¬g.Clash f := by
  obtain ⟨i, now, row, rfl, hi, hj, hexp⟩ := ha
  have hst : uploadStep config md5 s (.exec i now) = some s' := hst
  simp only [uploadStep, hi, Option.some.injEq] at hst
  subst hst
  intro g hg hc
  obtain ⟨hg, hkeep⟩ := Table.mem_delete.1 hg
  -- the row that clashes is the one that has expired
  obtain rfl := Table.eq_of_clash hg hf hc
  simp [hj, hexp] at hkeep

/-- A step that leaves a file alone does not bring it back. -/
theorem not_clash_uploadStep (hst : (uploadSystem config md5).step s a s') (ha : LeftAlone f s a)
    (hf : ∀ g ∈ s.tables.files.rows, ¬g.Clash f) : ∀ g ∈ s'.tables.files.rows, ¬g.Clash f := by
  obtain ⟨i, now, p, rfl, hi, rfl⟩ | ⟨request, outcome, -, -, rfl⟩ | ⟨request, ret, -, rfl⟩ |
      ⟨i, ret, -, rfl⟩ :=
    uploadStep_cases hst
  · exact not_clash_execStmt hf (ha i now p rfl hi)
  all_goals exact hf

end Statements

/-! ## Late commits -/

section Commit

variable {config md5} {s t : UploadState} {f : FileRow} {peername : Bytes}

/-- A run that leaves a file alone leaves it there, or expires it. -/
theorem mem_of_leftAlone (hst : (uploadSystem config md5).Steps (LeftAlone f) s t)
    (hf : f ∈ s.tables.files.rows) (hexp : ¬ExpiredBetween config md5 f s t) :
    f ∈ t.tables.files.rows := by
  obtain ht | ⟨u, a, v, hsu, hu, ha, huv, hv, hvt⟩ :=
    hst.exists_loss (I := fun s => f ∈ s.tables.files.rows) hf
  · exact ht
  · obtain hmem | hexpires := mem_uploadStep huv ha hu
    · exact absurd hmem hv
    · exact absurd ⟨u, a, v, hsu, ha, hexpires, huv, hvt⟩ hexp

/-- A run that expires a file leaves no row of its key. -/
theorem not_clash_of_expiredBetween (hf : f ∈ s.tables.files.rows)
    (hexp : ExpiredBetween config md5 f s t) : ∀ g ∈ t.tables.files.rows, ¬g.Clash f := by
  obtain ⟨u, a, v, hsu, ha, hexpires, huv, hvt⟩ := hexp
  -- the file is there when it expires, or had expired before
  have hu : f ∈ u.tables.files.rows ∨ ∀ g ∈ u.tables.files.rows, ¬g.Clash f := by
    refine hsu.preserves (I := fun u => f ∈ u.tables.files.rows ∨
      ∀ g ∈ u.tables.files.rows, ¬g.Clash f) (fun s a t hs ha hst => ?_) (.inl hf)
    rcases hs with hs | hs
    · obtain ht | hexpires := mem_uploadStep hst ha hs
      · exact .inl ht
      · exact .inr (hexpires.not_clash hst hs)
    · exact .inr (not_clash_uploadStep hst ha hs)
  refine hvt.preserves (I := fun u => ∀ g ∈ u.tables.files.rows, ¬g.Clash f)
    (fun s a t hs ha hst => not_clash_uploadStep hst ha hs) ?_
  rcases hu with hu | hu
  · exact hexpires.not_clash huv hu
  · exact not_clash_uploadStep huv ha hu

/-- The check of a commit finds the file of the URL. -/
theorem selectUpload_of_mem (ht : t.tables.Kept config) (hf : f ∈ t.tables.files.rows)
    (hup : f.state = .uploading) (hid : md5 peername = f.ulUserid) (now : ℤ) :
    (execStmt config md5 now t.tables (.selectUpload f.extUrl peername)).2 =
      .next (.commitFile f.jobid f.filename peername) := by
  simp only [execStmt]
  split
  · rename_i hnone
    exact absurd (List.find?_eq_none.1 hnone f hf) (by simp [hup])
  · rename_i g hg
    have hurl : g.extUrl = f.extUrl := by
      have := List.find?_some hg
      simp only [decide_eq_true_eq] at this
      exact this.1
    obtain rfl := ht.eq_of_extUrl (List.mem_of_find?_eq_some hg) hf hurl
    rw [if_neg (not_not.2 hid)]

/-- It finds nothing when no file has the key. -/
theorem selectUpload_of_not_clash (ht : t.tables.Kept config) (hf : f.Placed config)
    (hno : ∀ g ∈ t.tables.files.rows, ¬g.Clash f) (now : ℤ) :
    (execStmt config md5 now t.tables (.selectUpload f.extUrl peername)).2 =
      .done (some .ENOENT) := by
  simp only [execStmt]
  split
  · rfl
  · rename_i g hg
    have hurl : g.extUrl = f.extUrl := by
      have := List.find?_some hg
      simp only [decide_eq_true_eq] at this
      exact this.1
    have hmem := List.mem_of_find?_eq_some hg
    exact absurd ((ht.placed g hmem).clash_of_extUrl hf hurl) (hno g hmem)

/-- The deadline of an upload does not refuse its commit, at any time: the commit
    of the client that started the upload is refused if and only if an upload of
    the same job was started in between, after the deadline. -/
theorem commit_cases (hmd5 : ∀ s, ch '/' ∉ md5 s)
    (hs : (uploadSystem config md5).Reachable System.Always s) (hf : f ∈ s.tables.files.rows)
    (hup : f.state = .uploading) (hst : (uploadSystem config md5).Steps (LeftAlone f) s t)
    (hid : md5 peername = f.ulUserid) (now : ℤ) :
    (¬ExpiredBetween config md5 f s t →
      (execStmt config md5 now t.tables (.selectUpload f.extUrl peername)).2 =
        .next (.commitFile f.jobid f.filename peername) ∧
      { f with state := .committed, deadline := none } ∈ (execStmt config md5 now t.tables
        (.commitFile f.jobid f.filename peername)).1.files.rows) ∧
    (ExpiredBetween config md5 f s t →
      (execStmt config md5 now t.tables (.selectUpload f.extUrl peername)).2 =
        .done (some .ENOENT) ∧
      ∀ g ∈ (execStmt config md5 now t.tables
        (.commitFile f.jobid f.filename peername)).1.files.rows, ¬g.Clash f) := by
  have hplaced : f.Placed config := (UploadState.Kept.of_reachable hmd5 hs).tables.placed f hf
  have ht : t.Kept config := by
    refine hst.preserves (I := UploadState.Kept config) (fun s a t hs _ hst => hs.step hmd5 hst) ?_
    exact .of_reachable hmd5 hs
  constructor
  · intro hexp
    have hmem := mem_of_leftAlone hst hf hexp
    refine ⟨selectUpload_of_mem ht.tables hmem hup hid now, ?_⟩
    refine mem_commitRows.2 ⟨f, hmem, ?_⟩
    rw [commitRow, if_pos ⟨rfl, rfl⟩]
  · intro hexp
    have hno := not_clash_of_expiredBetween hf hexp
    refine ⟨selectUpload_of_not_clash ht.tables hplaced hno now, fun g hg hc => ?_⟩
    obtain ⟨g', hg', rfl⟩ := mem_commitRows.1 hg
    obtain ⟨hj, hn, -⟩ := commitRow_key f.jobid f.filename g'
    exact hno g' hg' ⟨hj.symm.trans hc.1, hn.symm.trans hc.2⟩

end Commit

/-! ## After the deadline -/

/-- The identity of the commit is checked when the deadline has passed. -/
def lateCommit : List UploadAction := checkedCommit.dropLast ++ [.exec 2 301]

theorem lateCommit_run : (lateCommit.foldlM (fun s a =>
    if System.Always s a then uploadStep sampleConfig sampleMd5 s a else none)
    ⟨⟨.empty, .empty, .empty⟩, []⟩).any
      (AboutToCommit (ascii "/CN=alice") (ascii "/CN=alice") 300 ·) = true := by
  decide +kernel

/-- The statement that a step executes, and when. -/
def UploadState.statement (s : UploadState) : UploadAction → Option (Proc × ℤ)
  | .exec i now =>
    match s.calls[i]? with
    | some (.next p) => some (p, now)
    | _ => none
  | _ => none

theorem statement_eq_some {s : UploadState} {a : UploadAction} {p : Proc} {now : ℤ} :
    s.statement a = some (p, now) ↔ ∃ i, a = .exec i now ∧ s.calls[i]? = some (.next p) := by
  constructor
  · intro h
    unfold UploadState.statement at h
    split at h
    · split at h
      · rename_i hi
        obtain ⟨rfl, rfl⟩ := Prod.mk.inj (Option.some.inj h)
        exact ⟨_, rfl, hi⟩
      · cases h
    · cases h
  · rintro ⟨i, rfl, hi⟩
    rw [UploadState.statement, hi]

instance (t : Tables) (f : FileRow) : DecidablePred (Proc.IsAbout t f)
  | .commitFile .. | .insertFile _ => inferInstanceAs (Decidable (_ ∧ _))
  | .storeOwner .. | .insertJob _ | .selectJob .. | .storePeer .. | .deleteExpired _
  | .selectUpload .. => inferInstanceAs (Decidable False)

instance (f : FileRow) (s : UploadState) (a : UploadAction) : Decidable (LeftAlone f s a) :=
  decidable_of_iff (∀ x ∈ s.statement a, ¬x.1.IsAbout s.tables f)
    ⟨fun h i now p ha hi => h (p, now) (statement_eq_some.2 ⟨i, ha, hi⟩), fun h x hx =>
      have ⟨i, ha, hi⟩ := statement_eq_some.1 hx
      h i x.2 x.1 ha hi⟩

/-- A statement that deletes a file, as it has expired. -/
def Proc.Deletes (f : FileRow) (now : ℤ) : Proc → Prop
  | .deleteExpired row => row.jobid = f.jobid ∧ f.expired now = true
  | _ => False

instance (f : FileRow) (now : ℤ) : DecidablePred (Proc.Deletes f now)
  | .deleteExpired _ => inferInstanceAs (Decidable (_ ∧ _))
  | .storeOwner .. | .insertJob _ | .selectJob .. | .storePeer .. | .insertFile _
  | .selectUpload .. | .commitFile .. => inferInstanceAs (Decidable False)

theorem Expires.of_deletes {f : FileRow} {s : UploadState} {a : UploadAction}
    (h : ∃ x ∈ s.statement a, x.1.Deletes f x.2) : Expires f s a := by
  obtain ⟨⟨p, now⟩, hx, hdel⟩ := h
  obtain ⟨i, ha, hi⟩ := statement_eq_some.1 hx
  cases p with
  | deleteExpired row => exact ⟨i, now, row, ha, hi, hdel⟩
  | _ => exact hdel.elim

/-- The upload of the first client, before its commit. -/
def ownUpload : FileRow := sampleUpload (ascii "/CN=alice") (some 300) .uploading

/-- The other client tries to upload the same file before the deadline. -/
def earlyUpload : List UploadAction :=
  [requestUpload (ascii "/CN=bob"), .exec 3 200, .exec 3 200, .exec 3 200, .exec 3 200]

/-- The other client uploads another file of the job after the deadline; the next statement
    is the one that deletes what has expired. -/
def otherUpload : List UploadAction :=
  [.call (.startUpload sampleJob.dgJobid (ascii "dump") (some (ascii "b")) (some (ascii "/CN=bob"))),
    .exec 3 400, .exec 3 400]

/-- The steps that leave the upload of the first client alone. -/
def leftAloneStep (s : UploadState) (a : UploadAction) : Option UploadState :=
  if LeftAlone ownUpload s a then uploadStep sampleConfig sampleMd5 s a else none

theorem earlyUpload_run : (checkedCommit.foldlM (fun s a =>
    if NoTakeover sampleMd5 s a then uploadStep sampleConfig sampleMd5 s a else none)
    ⟨⟨.empty, .empty, .empty⟩, []⟩).any (fun s : UploadState => ownUpload ∈ s.tables.files.rows ∧
      ((earlyUpload.foldlM leftAloneStep s).any fun t : UploadState =>
        t.calls[3]? = some (.done (some .EEXIST)) ∧ ownUpload ∈ t.tables.files.rows) ∧
      ((otherUpload.foldlM leftAloneStep s).any fun u : UploadState =>
        (∃ x ∈ u.statement (.exec 3 400), x.1.Deletes ownUpload x.2) ∧
        (([.exec 3 400].foldlM leftAloneStep u).any fun v : UploadState =>
          ([.exec 3 400].foldlM leftAloneStep v).any fun w : UploadState =>
            w.calls[3]? = some (.done none)))) = true := by
  decide +kernel

/-- The commit is accepted after the deadline, as nobody has started another upload for the
    job since; and it is refused when somebody has. -/
theorem commit_cases_sample : ∃ s t u : UploadState,
    (uploadSystem sampleConfig sampleMd5).Steps (LeftAlone ownUpload) s t ∧
      t.calls[3]? = some (.done (some .EEXIST)) ∧
      (execStmt sampleConfig sampleMd5 301 t.tables (.selectUpload
        ownUpload.extUrl (ascii "/CN=alice"))).2 =
          .next (.commitFile (ascii "abcdefghij") (ascii "dump") (ascii "/CN=alice")) ∧
      sampleUpload (ascii "/CN=alice") none .committed ∈ (execStmt sampleConfig sampleMd5 301 t.tables
        (.commitFile (ascii "abcdefghij") (ascii "dump") (ascii "/CN=alice"))).1.files.rows ∧
    (uploadSystem sampleConfig sampleMd5).Steps (LeftAlone ownUpload) s u ∧
      u.calls[3]? = some (.done none) ∧
      (execStmt sampleConfig sampleMd5 401 u.tables (.selectUpload
        ownUpload.extUrl (ascii "/CN=alice"))).2 = .done (some .ENOENT) := by
  obtain ⟨s, hrun, hs⟩ := Option.any_eq_true _ _ |>.1 earlyUpload_run
  obtain ⟨hmem, hearly, hother⟩ := of_decide_eq_true hs
  obtain ⟨t, ht, htrue⟩ := Option.any_eq_true _ _ |>.1 hearly
  obtain ⟨hrefused, hkept⟩ := of_decide_eq_true htrue
  obtain ⟨u, hu, htrue⟩ := Option.any_eq_true _ _ |>.1 hother
  obtain ⟨hdeletes, hlater⟩ := of_decide_eq_true htrue
  obtain ⟨v, hv, hlast⟩ := Option.any_eq_true _ _ |>.1 hlater
  obtain ⟨w, hw, htrue⟩ := Option.any_eq_true _ _ |>.1 hlast
  have hreach : (uploadSystem sampleConfig sampleMd5).Reachable System.Always s :=
    .mono ⟨_, rfl, .of_foldlM (fun _ _ _ h => h) hrun⟩ fun _ _ _ => trivial
  have hst : (uploadSystem sampleConfig sampleMd5).Steps (LeftAlone ownUpload) s t :=
    .of_foldlM (fun _ _ _ h => h) ht
  have hsu : (uploadSystem sampleConfig sampleMd5).Steps (LeftAlone ownUpload) s u :=
    .of_foldlM (fun _ _ _ h => h) hu
  have hvw : (uploadSystem sampleConfig sampleMd5).Steps (LeftAlone ownUpload) v w :=
    .of_foldlM (fun _ _ _ h => h) hw
  obtain ⟨hleft, huv⟩ : LeftAlone ownUpload u (.exec 3 400) ∧
      uploadStep sampleConfig sampleMd5 u (.exec 3 400) = some v := by
    rw [List.foldlM_cons] at hv
    obtain ⟨v', hv', hv⟩ := Option.bind_eq_some_iff.1 hv
    obtain rfl := Option.some.inj hv
    unfold leftAloneStep at hv'
    split_ifs at hv' with hleft
    exact ⟨hleft, hv'⟩
  have hexp : ExpiredBetween sampleConfig sampleMd5 ownUpload s w :=
    ⟨u, _, v, hsu, hleft, .of_deletes hdeletes, huv, hvw⟩
  have hid : sampleMd5 (ascii "/CN=alice") = ownUpload.ulUserid := rfl
  obtain ⟨hnext, hcommitted⟩ := (commit_cases sampleMd5_slash hreach hmem rfl hst hid 301).1
    fun hexp => not_clash_of_expiredBetween hmem hexp _ hkept ⟨rfl, rfl⟩
  have hrefuses := (commit_cases sampleMd5_slash hreach hmem rfl
    ((hsu.tail hleft huv).trans hvw) hid 401).2 hexp
  exact ⟨s, t, w, hst, hrefused, hnext, hcommitted, (hsu.tail hleft huv).trans hvw,
    of_decide_eq_true htrue, hrefuses.1⟩

/-- A file becomes committed a second after its deadline. -/
theorem late_commit_sample : ∃ s t, (uploadSystem sampleConfig sampleMd5).Reachable System.Always s ∧
    (uploadSystem sampleConfig sampleMd5).step s (.exec 2 301) t ∧
    sampleUpload (ascii "/CN=alice") (some 300) .uploading ∈ s.tables.files.rows ∧
    sampleUpload (ascii "/CN=alice") none .committed ∈ t.tables.files.rows := by
  obtain ⟨s, hrun, hs⟩ := Option.any_eq_true _ _ |>.1 lateCommit_run
  have hs : AboutToCommit (ascii "/CN=alice") (ascii "/CN=alice") 300 s := of_decide_eq_true hs
  obtain ⟨t, hst, ht⟩ := hs.step 301
  exact ⟨s, t, ⟨_, rfl, .of_foldlM (fun _ _ _ h => h) hrun⟩, hst,
    hs.1 ▸ List.mem_singleton_self _, ht⟩

end JobProvenance
