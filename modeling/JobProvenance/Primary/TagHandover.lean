import JobProvenance.Primary.Bulk

/-!
# Handing tags over

A request for several jobs appends the tags of one job after the other, and hands
them to the matcher behind the last of them. When it gets that far they are handed
over all together; when a job cannot be recorded, none is.

* `recordJobs_eq_some_iff`: the jobs are recorded one after the other, or the
  request ends with the first that is not (`recordJobs_append`);
* `growth_of_recordsAll`: a tag that was appended is seen in its file ever after;
* `tagsHanded_iff`: every tag that is appended is handed over exactly when no job
  that cannot be recorded stands behind one with tags.
-/

namespace JobProvenance

/-! ## Growing files -/

section Growth

variable {config : Config} {jobs : List JobRow} {disk disk' : Disk} {jobid : Bytes} {h h' : Fhandle}
  {tag : Attrval} {tags : List Attrval} {ret : Ret}

/-- The length of a file; a file that is missing has none. -/
def Disk.length (disk : Disk) (path : Bytes) : ℕ := ((disk path).getD []).length

theorem length_pwrite {buf : Bytes} {offset : ℕ} (hw : pwrite h buf offset = .ok h') :
    h.filedata.bytes.length ≤ h'.filedata.bytes.length := by
  unfold pwrite at hw
  split_ifs at hw with hmode ho
  · rw [← Except.ok.inj hw]
  · obtain ⟨d, hd, hw⟩ := Exec.bind_eq_ok.1 hw
    rw [← Except.ok.inj hw, Filedata.ofBytes_eq_ok.1 hd]
    simp only [List.length_append, List.length_take, List.length_drop]
    omega

/-- Appending a tag makes the file longer. -/
theorem length_tagAppend (ha : tagAppend h tag = .ok h') :
    h.filedata.bytes.length < h'.filedata.bytes.length := by
  unfold tagAppend at ha
  obtain ⟨magic, -, ha⟩ := Exec.bind_eq_ok.1 ha
  -- the record is appended to the file itself, or to the one with the magic number
  have hrecord : ∀ {h₁ : Fhandle} {len : Bytes → ℕ} {rec : Bytes → Bytes},
      h.filedata.bytes.length ≤ h₁.filedata.bytes.length →
      (tagValue tag >>= fun value => if len value % 2 ^ 32 < len value then
        (throw .fault : Exec Unit) >>= fun _ =>
          append h₁ (htonl (len value % 2 ^ 32) ++ rec value)
          else append h₁ (htonl (len value % 2 ^ 32) ++ rec value)) = .ok h' →
            h.filedata.bytes.length < h'.filedata.bytes.length := by
    intro h₁ len rec hle hr
    obtain ⟨value, -, hr⟩ := Exec.bind_eq_ok.1 hr
    split_ifs at hr
    · cases hr
    · obtain ⟨-, -, hbytes, -⟩ := append_eq_ok.1 hr
      rw [hbytes]
      simp only [List.length_append, length_htonl]
      omega
  dsimp only at ha
  split_ifs at ha
  · obtain ⟨h₁, hw, ha⟩ := Exec.bind_eq_ok.1 ha
    exact hrecord (length_pwrite hw) ha
  · cases ha
  · cases ha
  · exact hrecord le_rfl ha

theorem length_appendLoop (ha : appendLoop h tags = .ok (ret, h')) :
    h.filedata.bytes.length ≤ h'.filedata.bytes.length ∧
      (ret = none → tags ≠ [] → h.filedata.bytes.length < h'.filedata.bytes.length) := by
  induction tags generalizing h with
  | nil =>
    obtain ⟨-, rfl⟩ := Prod.mk.inj (Except.ok.inj ha)
    exact ⟨le_rfl, fun _ hne => absurd rfl hne⟩
  | cons tag tags ih =>
    unfold appendLoop at ha
    split at ha
    · rename_i h₁ htag
      have hlt := length_tagAppend htag
      have hle := (ih ha).1
      exact ⟨hlt.le.trans hle, fun _ _ => hlt.trans_le hle⟩
    · obtain ⟨rfl, rfl⟩ := Prod.mk.inj (Except.ok.inj ha)
      exact ⟨le_rfl, nofun⟩
    · cases ha

/-- Opening the file of the tags may create it, with no length. -/
theorem length_openFile_tags (ho : openFile config jobs disk jobid (ascii "tags") none
    (O_RDWR ||| O_CREAT) = .ok (disk', h)) (path : Bytes) :
    disk.length path = disk'.length path := by
  obtain ⟨fname, hf, -⟩ := Exec.bind_eq_ok.1 ho
  cases hd : disk fname with
  | some contents =>
    obtain ⟨d, -, he⟩ := (openFile_some hf hd (by decide)).1 ho
    obtain ⟨rfl, -⟩ := Prod.mk.inj he
    rfl
  | none =>
    obtain ⟨rfl, -⟩ := Prod.mk.inj (Except.ok.inj ((openFile_create hf hd).symm.trans ho))
    by_cases hp : path = fname
    · rw [hp, Disk.length, Disk.length, hd, Function.update_self]
      rfl
    · rw [Disk.length, Disk.length, Function.update_of_ne hp]

/-- A file that was appended to is rewritten when it is closed, and otherwise the handle is as
    before. -/
theorem appendLoop_cases (ha : appendLoop h tags = .ok (ret, h')) :
    h'.filename = h.filename ∧ h'.modified = true ∨ h' = h := by
  cases tags with
  | nil =>
    obtain ⟨-, rfl⟩ := Prod.mk.inj (Except.ok.inj ha)
    exact .inr rfl
  | cons tag tags =>
    unfold appendLoop at ha
    split at ha
    · rename_i h₁ htag
      obtain ⟨hname, -, hmod⟩ := tagAppend_frame htag
      obtain ⟨hname', hmod'⟩ := appendLoop_frame hmod ha
      exact .inl ⟨hname'.trans hname, hmod'⟩
    · obtain ⟨-, rfl⟩ := Prod.mk.inj (Except.ok.inj ha)
      exact .inr rfl
    · cases ha

theorem length_closeFile (hmod : h.modified = true) (path : Bytes) :
    (closeFile disk h).length path =
      if path = h.filename then h.filedata.bytes.length else disk.length path := by
  rw [closeFile, if_pos hmod]
  split_ifs with hp
  · rw [hp, Disk.length, Function.update_self]
    rfl
  · rw [Disk.length, Function.update_of_ne hp, Disk.length]

/-- A handle that has what the file has leaves it so when it is closed. -/
theorem closeFile_eq_self (hfile : disk h.filename = some h.filedata.bytes) :
    closeFile disk h = disk := by
  rw [closeFile]
  split_ifs
  · rw [← hfile, Function.update_eq_self]
  · rfl

/-- Appending tags makes no file shorter, and, when there are some and it succeeds, the
    file of the job longer. -/
theorem growth_of_appendTags (ha : appendTags config jobs disk jobid tags = .ok (ret, disk')) :
    (∀ path, disk.length path ≤ disk'.length path) ∧
      (ret = none → tags ≠ [] → ∃ path, disk.length path < disk'.length path) := by
  unfold appendTags at ha
  split at ha
  · obtain ⟨rfl, rfl⟩ := Prod.mk.inj (Except.ok.inj ha)
    exact ⟨fun _ => le_rfl, nofun⟩
  · cases ha
  · rename_i disk₀ h ho
    obtain ⟨⟨r, h'⟩, hloop, ha⟩ := Exec.bind_eq_ok.1 ha
    obtain ⟨rfl, rfl⟩ := Prod.mk.inj (Except.ok.inj ha)
    obtain ⟨-, -, -, hfile⟩ := openFile_append ho
    have hopen := length_openFile_tags ho
    obtain ⟨hle, hlt⟩ := length_appendLoop hloop
    have hself : disk₀.length h.filename = h.filedata.bytes.length := by
      rw [Disk.length, hfile]
      rfl
    rcases appendLoop_cases hloop with ⟨hname, hmod⟩ | rfl
    · refine ⟨fun path => ?_, fun hret hne => ⟨h.filename, ?_⟩⟩
      · rw [hopen, length_closeFile hmod, hname]
        split_ifs with hp
        · rw [hp, hself]
          exact hle
        · exact le_rfl
      · rw [hopen, length_closeFile hmod, if_pos hname.symm, hself]
        exact hlt hret hne
    · -- nothing was appended, so there were no tags or it has failed
      rw [closeFile_eq_self hfile]
      exact ⟨fun path => (hopen path).le, fun hret hne => absurd (hlt hret hne) (lt_irrefl _)⟩

end Growth

/-! ## Recording -/

section Recording

variable (env : Env) (ctx : PsContext) (now : ℤ)

/-- A job is recorded: the client may tag it, and its tags are appended. -/
structure Recorded (s : PsState) (j : Bytes × List SoapTag) (attrs : List Attrval) (disk : Disk) :
    Prop where
  owner : ∃ owner, taggedOwner ctx s j.1 = .ok (some owner)
  tags : j.2.mapM (tagAttrval · now) = .ok attrs
  appended : appendTags env.config s.tables.jobs.rows s.disk j.1 attrs = .ok (none, disk)

/-- Jobs are recorded one after the other: what is appended of them. -/
inductive RecordsAll : PsState → List (Bytes × List SoapTag) → List (Bytes × List Attrval) →
    PsState → Prop
  | nil {s} : RecordsAll s [] [] s
  | cons {s j attrs disk jobs appended t} (h : Recorded env ctx now s j attrs disk)
      (hs : RecordsAll { s with disk } jobs appended t) :
      RecordsAll s (j :: jobs) ((j.1, attrs) :: appended) t

/-- What a request hands to the matcher. -/
def handedOver (jobs : List (Bytes × List SoapTag)) (s : PsState) : List (Bytes × List Attrval) :=
  match recordJobs env ctx now jobs s with
  | .ok (some recorded) _ => recorded
  | _ => []

/-- A request changes no file, or hands over every tag it has appended. -/
def TagsHanded (jobs : List (Bytes × List SoapTag)) (s : PsState) : Prop :=
  (Stateful.left (recordJobs env ctx now jobs s)).disk = s.disk ∨
    ∀ before after appended t, jobs = before ++ after → RecordsAll env ctx now s before appended t →
      ∀ j ∈ appended, ∀ attr ∈ j.2, ∃ attrs, (j.1, attrs) ∈ handedOver env ctx now jobs s ∧ attr ∈ attrs

/-- No job that cannot be recorded stands behind one with tags. -/
def FailsBare (jobs : List (Bytes × List SoapTag)) (s : PsState) : Prop :=
  ∀ before j after appended t, jobs = before ++ j :: after →
    RecordsAll env ctx now s before appended t → (∃ k ∈ before, k.2 ≠ []) →
      ∃ attrs disk, Recorded env ctx now t j attrs disk

variable {env ctx now} {s t : PsState} {j : Bytes × List SoapTag}
  {jobs before after : List (Bytes × List SoapTag)} {attrs : List Attrval} {disk : Disk}
  {appended recorded : List (Bytes × List Attrval)}

/-- The first job of a request is recorded, and the others are left. -/
theorem recordJobs_cons (h : Recorded env ctx now s j attrs disk) :
    recordJobs env ctx now (j :: jobs) s = (do
      match ← recordJobs env ctx now jobs with
      | none => return none
      | some recorded => return some ((j.1, attrs) :: recorded)) { s with disk } := by
  obtain ⟨⟨owner, howner⟩, hattrs, happended⟩ := h
  have happend : jppsbeAppendTags env j.1 attrs s = .ok none { s with disk } :=
    jppsbeAppendTags_eq_ok.2 ⟨disk, happended, rfl⟩
  obtain ⟨job, tags⟩ := j
  rw [recordJobs, Stateful.get_bind, howner, Stateful.liftM_bind]
  dsimp only at hattrs happend ⊢
  rw [Stateful.mapM_liftM, hattrs, Stateful.liftM_bind]
  exact (Stateful.bind_of_ok happend).trans rfl

/-- A request gets to the matcher when all of its jobs are recorded. -/
theorem recordJobs_eq_some_iff :
    recordJobs env ctx now jobs s = .ok (some recorded) t ↔ RecordsAll env ctx now s jobs recorded t := by
  induction jobs generalizing s recorded with
  | nil =>
    rw [recordJobs, Stateful.pure_eq_ok]
    constructor
    · rintro ⟨hr, rfl⟩
      obtain rfl := Option.some.inj hr
      exact .nil
    · rintro ⟨⟩
      exact ⟨rfl, rfl⟩
  | cons j jobs ih =>
    obtain ⟨job, tags⟩ := j
    rw [recordJobs_cons_eq_some]
    constructor
    · rintro ⟨owner, attrs, disk, rest, howner, hattrs, happ, hrest, rfl⟩
      exact .cons ⟨⟨owner, howner⟩, hattrs, happ⟩ (ih.1 hrest)
    · rintro (_ | ⟨⟨⟨owner, howner⟩, hattrs, happ⟩, hs⟩)
      exact ⟨owner, _, _, _, howner, hattrs, happ, ih.2 hs, rfl⟩

/-- What is recorded of a job is determined. -/
theorem Recorded.unique {attrs' : List Attrval} {disk' : Disk} (h : Recorded env ctx now s j attrs disk)
    (h' : Recorded env ctx now s j attrs' disk') : attrs = attrs' ∧ disk = disk' := by
  obtain rfl := Except.ok.inj (h.tags.symm.trans h'.tags)
  exact ⟨rfl, (Prod.mk.inj (Except.ok.inj (h.appended.symm.trans h'.appended))).2⟩

/-- Behind jobs that are recorded the request goes on with the others. -/
theorem RecordsAll.append_iff (h : RecordsAll env ctx now s before appended t) {recorded u} :
    RecordsAll env ctx now s (before ++ after) recorded u ↔
      ∃ rest, recorded = appended ++ rest ∧ RecordsAll env ctx now t after rest u := by
  induction h generalizing recorded with
  | nil => simp
  | @cons s j attrs disk jobs appended t hj hs ih =>
    constructor
    · rintro (_ | ⟨hj', hs'⟩)
      obtain ⟨rfl, rfl⟩ := hj.unique hj'
      obtain ⟨rest, rfl, hrest⟩ := ih.1 hs'
      exact ⟨rest, rfl, hrest⟩
    · rintro ⟨rest, rfl, hrest⟩
      exact .cons hj (ih.2 ⟨rest, rfl, hrest⟩)

/-- The disk a request leaves when it has recorded some jobs. -/
theorem left_recordJobs_append (h : RecordsAll env ctx now s before appended t) :
    Stateful.left (recordJobs env ctx now (before ++ after) s) =
      Stateful.left (recordJobs env ctx now after t) := by
  induction h with
  | nil => rfl
  | @cons s j attrs disk jobs appended t hj hs ih =>
    rw [List.cons_append, recordJobs_cons hj, Stateful.bind_eq, ← ih]
    cases recordJobs env ctx now (jobs ++ after) { s with disk } with
    | error e u => rfl
    | ok r u => cases r <;> rfl

/-- A request makes no file shorter. -/
theorem recordJobs_keeps_length (path : Bytes) (n : ℕ) :
    Stateful.Keeps (fun s : PsState => n ≤ s.disk.length path) (recordJobs env ctx now jobs) := by
  induction jobs with
  | nil => exact .pure _
  | cons j jobs ih =>
    obtain ⟨job, tags⟩ := j
    have happend : ∀ attrs, Stateful.Keeps (fun s : PsState => n ≤ s.disk.length path)
        (jppsbeAppendTags env job attrs) := by
      intro attrs s hs
      unfold jppsbeAppendTags
      split
      · rename_i ret disk happended
        exact hs.trans ((growth_of_appendTags happended).1 path)
      · exact hs
    refine keeps_get.bind fun s => (Stateful.Keeps.liftM _).bind fun owner => ?_
    cases owner with
    | none => exact .pure _
    | some owner =>
      rw [Stateful.mapM_liftM]
      refine (Stateful.Keeps.liftM _).bind fun attrs => (happend attrs).bind fun ret => ?_
      cases ret with
      | some e => exact .pure _
      | none =>
        refine ih.bind fun recorded => ?_
        cases recorded <;> exact .pure _

/-- When tags are appended, a file is longer. -/
theorem growth_of_recordsAll (h : RecordsAll env ctx now s jobs appended t) :
    (∀ path, s.disk.length path ≤ t.disk.length path) ∧
      ((∃ j ∈ jobs, j.2 ≠ []) → ∃ path, s.disk.length path < t.disk.length path) := by
  induction h with
  | nil => exact ⟨fun _ => le_rfl, by simp⟩
  | @cons s j attrs disk jobs appended t hj hs ih =>
    obtain ⟨hle, hlt⟩ := growth_of_appendTags hj.appended
    refine ⟨fun path => (hle path).trans (ih.1 path), ?_⟩
    rintro ⟨k, hk, htags⟩
    rcases List.mem_cons.1 hk with rfl | hk
    · have hne : attrs ≠ [] := by
        rintro rfl
        have hlen := (Exec.mapM_eq_ok.1 hj.tags).length_eq
        exact htags (List.length_eq_zero_iff.1 hlen)
      obtain ⟨path, hpath⟩ := hlt rfl hne
      exact ⟨path, hpath.trans_le (ih.1 path)⟩
    · obtain ⟨path, hpath⟩ := ih.2 ⟨k, hk, htags⟩
      exact ⟨path, (hle path).trans_lt hpath⟩

/-- What is appended are the tags of the jobs. -/
theorem forall₂_of_recordsAll (h : RecordsAll env ctx now s jobs appended t) :
    List.Forall₂ (fun k a => k.2.length = a.2.length) jobs appended := by
  induction h with
  | nil => exact .nil
  | cons hj hs ih => exact .cons (Exec.mapM_eq_ok.1 hj.tags).length_eq ih

theorem RecordsAll.snoc (h : RecordsAll env ctx now s before appended t)
    (hj : Recorded env ctx now t j attrs disk) :
    RecordsAll env ctx now s (before ++ [j]) (appended ++ [(j.1, attrs)]) { t with disk } :=
  h.append_iff.2 ⟨_, rfl, .cons hj .nil⟩

/-- Behind a job with tags all jobs are recorded. -/
theorem exists_recordsAll (hbare : FailsBare env ctx now (before ++ after) s)
    (h : RecordsAll env ctx now s before appended t) (htags : ∃ k ∈ before, k.2 ≠ []) :
    ∃ recorded u, RecordsAll env ctx now s (before ++ after) recorded u := by
  induction after generalizing before appended t with
  | nil => exact ⟨appended, t, by rwa [List.append_nil]⟩
  | cons j after ih =>
    obtain ⟨attrs, disk, hj⟩ := hbare before j after appended t rfl h htags
    have hsplit : before ++ j :: after = (before ++ [j]) ++ after := by simp
    rw [hsplit] at hbare ⊢
    obtain ⟨k, hk, hne⟩ := htags
    exact ih hbare (h.snoc hj) ⟨k, List.mem_append_left _ hk, hne⟩

/-- Every tag that is appended is handed to the matcher exactly when no job that cannot be
    recorded stands behind one with tags. -/
theorem tagsHanded_iff : TagsHanded env ctx now jobs s ↔ FailsBare env ctx now jobs s := by
  constructor
  · rintro h before j after appended t rfl hrec ⟨k, hk, htags⟩
    by_contra! hno
    -- nothing is handed over, though a file has grown
    have hnone : handedOver env ctx now (before ++ j :: after) s = [] := by
      unfold handedOver
      split
      · rename_i recorded u hok
        obtain ⟨rest, -, hrest⟩ := hrec.append_iff.1 (recordJobs_eq_some_iff.1 hok)
        cases hrest with
        | cons hj _ => exact absurd hj (hno _ _)
      · rfl
    rcases h with hdisk | h
    · obtain ⟨path, hpath⟩ := (growth_of_recordsAll hrec).2 ⟨k, hk, htags⟩
      have hkeep := @recordJobs_keeps_length env ctx now (j :: after) path _ t le_rfl
      rw [← left_recordJobs_append hrec, hdisk] at hkeep
      exact absurd hpath hkeep.not_gt
    · obtain ⟨a, ha, hlen⟩ := (Exec.mem_of_forall₂ (forall₂_of_recordsAll hrec)).1 k hk
      obtain ⟨attr, hattr⟩ : ∃ attr, attr ∈ a.2 := by
        refine List.exists_mem_of_ne_nil _ fun hnil => htags ?_
        rw [hnil, List.length_nil] at hlen
        exact List.length_eq_zero_iff.1 hlen
      obtain ⟨attrs, hmem, -⟩ := h before _ appended t rfl hrec a ha attr hattr
      rw [hnone] at hmem
      cases hmem
  · rintro hbare
    refine .inr fun before after appended t hjobs hrec a ha attr hattr => ?_
    subst hjobs
    obtain ⟨k, hk, hlen⟩ := (Exec.mem_of_forall₂ (forall₂_of_recordsAll hrec)).2 a ha
    have htags : k.2 ≠ [] := by
      intro hnil
      rw [hnil, List.length_nil] at hlen
      rw [List.length_eq_zero_iff.1 hlen.symm] at hattr
      cases hattr
    obtain ⟨recorded, u, hall⟩ := exists_recordsAll hbare hrec ⟨k, hk, htags⟩
    obtain ⟨rest, rfl, -⟩ := hrec.append_iff.1 hall
    refine ⟨a.2, ?_, hattr⟩
    rw [handedOver, recordJobs_eq_some_iff.2 hall]
    exact List.mem_append_left _ ha

end Recording

/-! ## A job that is not registered -/

/-- A request for the job of a client, and for one that is not registered. -/
def strayRequest : List (Bytes × List SoapTag) :=
  [(lateJob.dgJobid, [redTag]), (ascii "https://lb/unknown", [redTag])]

/-- The tag of the first job is appended, and not handed over. -/
theorem not_tagsHanded_stray : ¬TagsHanded sampleEnv alice 100 strayRequest (oneJobState .empty) := by
  have hnone : handedOver sampleEnv alice 100 strayRequest (oneJobState .empty) = [] := by
    decide +kernel
  obtain ⟨attr, hattr⟩ : ∃ attr, tagAttrval redTag 100 = .ok attr :=
    Exec.exists_of_isOk (by decide +kernel)
  obtain ⟨disk, hdisk⟩ : ∃ disk, appendTags sampleEnv.config (oneJobState .empty).tables.jobs.rows
      (oneJobState .empty).disk lateJob.dgJobid [attr] = .ok (none, disk) := by
    obtain rfl := Except.ok.inj hattr
    exact Exec.exists_of_map_fst (by decide +kernel)
  have hrec : RecordsAll sampleEnv alice 100 (oneJobState .empty) [(lateJob.dgJobid, [redTag])]
      [(lateJob.dgJobid, [attr])] { oneJobState .empty with disk } := by
    refine .cons ⟨⟨ascii "/CN=alice", by decide +kernel⟩, ?_, hdisk⟩ .nil
    rw [List.mapM_cons, hattr]
    rfl
  rintro (hsame | h)
  · obtain ⟨path, hpath⟩ := (growth_of_recordsAll hrec).2 ⟨_, List.mem_singleton_self _, by decide⟩
    have hkeep := @recordJobs_keeps_length sampleEnv alice 100
      [(ascii "https://lb/unknown", [redTag])] path _ { oneJobState .empty with disk } le_rfl
    rw [← left_recordJobs_append hrec] at hkeep
    exact absurd hpath (hsame ▸ hkeep).not_gt
  · obtain ⟨attrs, hmem, -⟩ := h _ _ _ _ rfl hrec _ (List.mem_singleton_self _) attr
      (List.mem_singleton_self _)
    rw [hnone] at hmem
    cases hmem

end JobProvenance
