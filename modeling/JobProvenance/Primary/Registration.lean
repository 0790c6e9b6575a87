import JobProvenance.Lib.FileTree
import JobProvenance.Primary.Upload

/-!
# Registrations

A job is registered by a row of the table `jobs` and a directory for its files, which
stands below one for its owner and the week. Every step may fail.

* `mkdirpath`: makes the directories of a path, which is `FileTree.mkdirs` of its
  components (`mkdirpathFrom_eq`); that the last one is not made is no failure;
* `gliteJppsbeRegisterJob`: a registration;
* `allOrNothing_iff`: it leaves nothing, or all that belongs to a job, exactly when nothing
  is in the way of the directories once the row is inserted.
-/

namespace JobProvenance

/-! ## Paths -/

/-- What the system says when it refuses to make a directory: not that it exists. -/
abbrev Refusal := { e : Errno // e ≠ .EEXIST }

/-- The error code of a directory that is not made. -/
def MkdirError.errno : MkdirError Refusal → Errno
  | .present => .EEXIST
  | .noParent => .ENOENT
  | .refused e => e

theorem errno_ne_EEXIST {e : MkdirError Refusal} (h : e ≠ .present) : e.errno ≠ .EEXIST := by
  cases e with
  | present => exact absurd rfl h
  | noParent => decide
  | refused e => exact e.2

/-- What follows the next name of a path. -/
def behindName (p : Bytes) : Bytes := (p.dropWhile (· = ch '/')).dropWhile (· ≠ ch '/')

/-- The next name of a path, with the slashes in front of it. -/
def nextName (p : Bytes) : Bytes :=
  p.takeWhile (· = ch '/') ++ (p.dropWhile (· = ch '/')).takeWhile (· ≠ ch '/')

theorem length_behindName_lt {p : Bytes} (h : behindName p ≠ []) :
    (behindName p).length < p.length := by
  cases p with
  | nil => exact absurd rfl h
  | cons b p =>
    have hle : ∀ q : Bytes, (q.dropWhile (· ≠ ch '/')).length ≤ q.length := fun q =>
      (List.dropWhile_sublist _).length_le
    by_cases hb : b = ch '/'
    · rw [behindName, List.dropWhile_cons_of_pos (by simpa using hb)]
      have := hle (p.dropWhile (· = ch '/'))
      have := (List.dropWhile_sublist (· = ch '/') (l := p)).length_le
      rw [List.length_cons]
      omega
    · rw [behindName, List.dropWhile_cons_of_neg (by simpa using hb),
        List.dropWhile_cons_of_pos (by simpa using hb), List.length_cons]
      have := hle p
      omega

section Mkdirpath

variable (refused : List Bytes → Option Refusal)

/-- Makes the directories of a path of which a part is behind already. -/
def mkdirpathFrom (wpath p : Bytes) (t : FileTree Bytes) : FileTree Bytes × Ret :=
  let made := t.mkdir refused (strtok (ch '/') (wpath ++ nextName p))
  match made.2 with
  | none | some .present =>
    if _ : behindName p = [] then (made.1, none)
    else mkdirpathFrom (wpath ++ nextName p) (behindName p) made.1
  | some e => (made.1, if behindName p = [] then none else some e.errno)
termination_by p.length
decreasing_by all_goals exact length_behindName_lt ‹_›

/-- Makes the directories of a path behind a prefix of it. -/
def mkdirpath (path : Bytes) (prefixlen : ℕ) (t : FileTree Bytes) : FileTree Bytes × Ret :=
  mkdirpathFrom refused (path.take prefixlen) (path.drop prefixlen) t

end Mkdirpath

/-! The names of a path one by one. -/

section Names

variable {refused : List Bytes → Option Refusal} {wpath c p : Bytes} {cs : List Bytes}
  {t : FileTree Bytes}

/-- A name of a path: it is not empty, and has no slash. -/
def IsName (c : Bytes) : Prop := c ≠ [] ∧ ch '/' ∉ c

/-- The names of a path, each behind a slash. -/
def joinNames (cs : List Bytes) : Bytes := cs.flatMap (ch '/' :: ·)

theorem nextName_cons (hc : IsName c) (hp : p = [] ∨ p.head? = some (ch '/')) :
    nextName (ch '/' :: c ++ p) = ch '/' :: c ∧ behindName (ch '/' :: c ++ p) = p := by
  obtain ⟨hne, hslash⟩ := hc
  have hslashes : (c ++ p).dropWhile (· = ch '/') = c ++ p ∧ (c ++ p).takeWhile (· = ch '/') = [] := by
    cases c with
    | nil => exact absurd rfl hne
    | cons b c =>
      have hb : ¬decide (b = ch '/') = true := by
        rw [decide_eq_true_eq]
        exact fun h => hslash (h ▸ List.mem_cons_self)
      exact ⟨List.dropWhile_cons_of_neg hb, List.takeWhile_cons_of_neg hb⟩
  have hall : ∀ b ∈ c, decide (b ≠ ch '/') = true := fun b hb =>
    decide_eq_true fun h => hslash (h ▸ hb)
  have hend : p.takeWhile (· ≠ ch '/') = [] ∧ p.dropWhile (· ≠ ch '/') = p := by
    cases p with
    | nil => exact ⟨rfl, rfl⟩
    | cons b p =>
      have hb : ¬decide (b ≠ ch '/') = true := by
        have hb : b = ch '/' := by simpa using hp
        rw [hb]
        decide
      exact ⟨List.takeWhile_cons_of_neg hb, List.dropWhile_cons_of_neg hb⟩
  constructor
  · rw [nextName, List.cons_append, List.takeWhile_cons_of_pos (by decide),
      List.dropWhile_cons_of_pos (by decide), hslashes.1, hslashes.2,
      List.takeWhile_append_of_pos hall, hend.1, List.append_nil]
    rfl
  · rw [behindName, List.cons_append, List.dropWhile_cons_of_pos (by decide), hslashes.1,
      List.dropWhile_append_of_pos hall, hend.2]

theorem joinNames_head (cs : List Bytes) : joinNames cs = [] ∨ (joinNames cs).head? = some (ch '/') := by
  cases cs with
  | nil => exact .inl rfl
  | cons c cs => exact .inr rfl

theorem joinNames_eq_nil : joinNames cs = [] ↔ cs = [] := by
  cases cs with
  | nil => exact iff_of_true rfl rfl
  | cons c cs => exact iff_of_false (List.cons_ne_nil _ _) (List.cons_ne_nil _ _)

theorem strtok_append_name (hc : IsName c) :
    strtok (ch '/') (wpath ++ ch '/' :: c) = strtok (ch '/') wpath ++ [c] := by
  rw [strtok_append_cons, strtok_of_notMem hc.2, List.filter_singleton]
  simp [hc.1]

theorem strtok_append_names (hnames : ∀ c ∈ cs, IsName c) :
    strtok (ch '/') (wpath ++ joinNames cs) = strtok (ch '/') wpath ++ cs := by
  induction cs generalizing wpath with
  | nil => exact (congrArg (strtok _) (List.append_nil wpath)).trans (List.append_nil _).symm
  | cons c cs ih =>
    rw [List.forall_mem_cons] at hnames
    have hjoin : joinNames (c :: cs) = ch '/' :: c ++ joinNames cs := List.flatMap_cons
    rw [hjoin, ← List.append_assoc, ih hnames.2, strtok_append_name hnames.1, List.append_assoc]
    rfl

/-- The directories of a path are those of its names, one below the other, and only that one
    of them that is not the last cannot be made is a failure. -/
theorem mkdirpathFrom_eq (hcs : cs ≠ []) (hnames : ∀ c ∈ cs, IsName c) :
    mkdirpathFrom refused wpath (joinNames cs) t =
      ((t.mkdirs refused (strtok (ch '/') wpath) cs).1,
        match (t.mkdirs refused (strtok (ch '/') wpath) cs).2 with
        | some (_ :: _, e) => some e.errno
        | _ => none) := by
  induction cs generalizing wpath t with
  | nil => exact absurd rfl hcs
  | cons c cs ih =>
    rw [List.forall_mem_cons] at hnames
    obtain ⟨hnext, hbehind⟩ := nextName_cons hnames.1 (joinNames_head cs)
    have hjoin : joinNames (c :: cs) = ch '/' :: c ++ joinNames cs := List.flatMap_cons
    rw [mkdirpathFrom, hjoin, hnext, hbehind, strtok_append_name hnames.1, FileTree.mkdirs]
    have hgo : ∀ t' : FileTree Bytes, (if _ : joinNames cs = [] then (t', none) else
        mkdirpathFrom refused (wpath ++ ch '/' :: c) (joinNames cs) t') =
        ((t'.mkdirs refused (strtok (ch '/') wpath ++ [c]) cs).1,
          match (t'.mkdirs refused (strtok (ch '/') wpath ++ [c]) cs).2 with
          | some (_ :: _, e) => some e.errno
          | _ => none) := by
      intro t'
      split_ifs with hnil
      · rw [joinNames_eq_nil.1 hnil]
        rfl
      · rw [ih (fun h => hnil (joinNames_eq_nil.2 h)) hnames.2, strtok_append_name hnames.1]
    rcases t.mkdir refused (strtok (ch '/') wpath ++ [c]) with ⟨t', _ | _ | _ | e⟩
    · exact hgo t'
    · exact hgo t'
    · dsimp only
      cases cs with
      | nil => rfl
      | cons c' cs => rfl
    · dsimp only
      cases cs with
      | nil => rfl
      | cons c' cs => rfl

end Names

/-! ## Registering a job -/

/-- The tables of the storage, and its files. -/
structure RegisterState where
  tables : Tables
  tree : FileTree Bytes

/-- How the steps of a registration go: when it is made, whether there is memory for the
    unique part, the user is stored, there is memory for the time and the statement, the row
    is inserted, there is memory for the path and a copy of it, and which directories are
    refused. -/
structure RegisterOutcome where
  regTime : ℤ
  pathname : Bool
  userStored : Bool
  dbtime : Bool
  stmt : Bool
  inserted : Bool
  dataDir : Bool
  wpath : Bool
  refused : List Bytes → Option Refusal

section Register

variable (config : Config) (md5 : Bytes → Bytes) (o : RegisterOutcome)

/-- The row of a job that is registered. -/
def registeredRow (job owner ju : Bytes) : JobRow := ⟨ju, job, md5 owner, o.regTime⟩

/-- Makes the directory of a job. -/
def mkdirData (row : JobRow) (tree : FileTree Bytes) : FileTree Bytes × Ret :=
  if o.dataDir = false then (tree, some .ENOMEM)
  else if o.wpath = false then (tree, some .ENOMEM)
  else
    let made := mkdirpath o.refused (dataDir config.internalPath row.owner row.regTime row.jobid)
      config.internalPath.length tree
    (made.1, if made.2 = some .EEXIST then none else made.2)

/-- Registers a job. -/
def gliteJppsbeRegisterJob (job owner : Bytes) (s : RegisterState) : Exec (RegisterState × Ret) :=
  match jobidUniquePathname job true with
  | .error (.errno e) => .ok (s, some e)
  -- there are no copies to write into
  | .error e => if o.pathname = false then .ok (s, some .ENOMEM) else .error e
  | .ok ju =>
    if o.pathname = false then .ok (s, some .ENOMEM)
    else if o.userStored = false then .ok (s, some Errno.EIO)
    else
      let tables := storeUser s.tables (md5 owner) owner
      if o.dbtime = false ∨ o.stmt = false then .ok (⟨tables, s.tree⟩, some .ENOMEM)
      else if o.inserted = false then .ok (⟨tables, s.tree⟩, some Errno.EIO)
      else
        match tables.jobs.insert (registeredRow md5 o job owner ju) with
        | none => .ok (⟨tables, s.tree⟩, some .EEXIST)
        | some jobs =>
          let made := mkdirData config o (registeredRow md5 o job owner ju) s.tree
          .ok (⟨{ tables with jobs }, made.1⟩, made.2)

/-- A registration that fails leaves the jobs as they were, and one that succeeds a job with
    a directory in directories. -/
structure AllOrNothing (job owner : Bytes) (s s' : RegisterState) (ret : Ret) : Prop where
  failure : ret ≠ none → s'.tables.jobs = s.tables.jobs
  success : ret = none → ∃ row ∈ s'.tables.jobs.rows, row.dgJobid = job ∧ row.owner = md5 owner ∧
    ∀ p, p <+: strtok (ch '/') (dataDir config.internalPath row.owner row.regTime row.jobid) →
      s'.tree.IsDir p

/-- The directories of a job below the internal path. -/
def dataNames (row : JobRow) : List Bytes :=
  [ascii "data", row.owner, printDec (int32 (regtimeTrunc row.regTime)), row.jobid]

/-- The row of a job is inserted: nothing fails before, and there is no such job yet. -/
def Inserts (job owner ju : Bytes) (s : RegisterState) : Prop :=
  o.pathname = true ∧ o.userStored = true ∧ o.dbtime = true ∧ o.stmt = true ∧ o.inserted = true ∧
    ∀ row ∈ s.tables.jobs.rows, ¬row.Clash (registeredRow md5 o job owner ju)

/-- Nothing is in the way of the directory of a job: there is memory, the internal path is a
    directory, and below it the directories can be made or are there. -/
def CanMakeData (row : JobRow) (tree : FileTree Bytes) : Prop :=
  o.dataDir = true ∧ o.wpath = true ∧ tree.IsDir (strtok (ch '/') config.internalPath) ∧
    tree.CanMake o.refused (strtok (ch '/') config.internalPath) (dataNames row)

end Register

section Registered

variable {config : Config} {md5 : Bytes → Bytes} {o : RegisterOutcome} {job owner ju : Bytes}
  {s s' : RegisterState} {ret : Ret} {row : JobRow} {tree : FileTree Bytes}

theorem isName_printDec (z : ℤ) : IsName (printDec z) := by
  refine ⟨?_, notMem_printDec (by decide) (by decide)⟩
  cases z with
  | ofNat n => exact printNat_ne_nil n
  | negSucc n => exact List.cons_ne_nil _ _

theorem IsMd5.isName (hmd5 : IsMd5 md5) (x : Bytes) : IsName (md5 x) := by
  refine ⟨fun h => ?_, fun h => ?_⟩
  · have := hmd5.length x
    rw [h] at this
    cases this
  · exact absurd (hmd5.digits x _ h) (by decide)

/-- The names of the directories of a job that is registered. -/
theorem isName_of_mem_dataNames (hmd5 : IsMd5 md5) (hju : jobidUniquePathname job true = .ok ju) :
    ∀ c ∈ dataNames (registeredRow md5 o job owner ju), IsName c := by
  have hname : IsName ju := by
    refine ⟨?_, notMem_of_afterLast (afterLast_of_jobidUniquePathname hju)⟩
    rintro rfl
    rw [jobidUniquePathname] at hju
    split at hju
    · cases hju
    · split_ifs at hju with hshort
      obtain rfl := Except.ok.inj hju
      exact hshort ⟨rfl, by decide⟩
  simp only [dataNames, registeredRow, List.forall_mem_cons]
  exact ⟨⟨by decide, by decide⟩, hmd5.isName owner, isName_printDec _, hname, nofun⟩

theorem dataDir_eq (root : Bytes) : dataDir root row.owner row.regTime row.jobid =
    root ++ joinNames (dataNames row) := by
  have hdata : ascii "/data/" = ch '/' :: ascii "data" ++ [ch '/'] := by decide
  simp only [dataDir, dataNames, joinNames, hdata, List.flatMap_cons, List.flatMap_nil,
    List.append_assoc, List.cons_append, List.nil_append, List.append_nil]

/-- The directory of a job is there afterwards, and the registration goes on, exactly when
    nothing is in its way. -/
theorem mkdirData_iff (hnames : ∀ c ∈ dataNames row, IsName c) :
    ((mkdirData config o row tree).2 = none ∧ (mkdirData config o row tree).1.IsDir
      (strtok (ch '/') (dataDir config.internalPath row.owner row.regTime row.jobid))) ↔
      CanMakeData config o row tree := by
  rw [mkdirData, CanMakeData]
  cases o.dataDir with
  | false => exact iff_of_false (fun h => Option.some_ne_none _ h.1) (fun h => Bool.false_ne_true h.1)
  | true =>
    cases o.wpath with
    | false =>
      exact iff_of_false (fun h => Option.some_ne_none _ h.1) (fun h => Bool.false_ne_true h.2.1)
    | true =>
      have hne : dataNames row ≠ [] := List.cons_ne_nil _ _
      rw [if_neg (by decide), if_neg (by decide), mkdirpath, dataDir_eq, List.take_left,
        List.drop_left, mkdirpathFrom_eq hne hnames, strtok_append_names hnames,
        ← FileTree.mkdirs_reaches_iff hne, FileTree.Reaches, and_comm, and_iff_right rfl,
        and_iff_right rfl]
      refine and_congr_right fun _ => ?_
      cases hstop : (tree.mkdirs o.refused (strtok (ch '/') config.internalPath) (dataNames row)).2 with
      | none => exact iff_of_true rfl nofun
      | some stop =>
        obtain ⟨_ | ⟨c, cs⟩, e⟩ := stop
        · exact iff_of_true rfl fun _ _ h => (Prod.mk.inj (Option.some.inj h)).1.symm
        · refine iff_of_false ?_ fun h => List.cons_ne_nil _ _ (h _ _ rfl)
          dsimp only
          rw [if_neg fun h => errno_ne_EEXIST (FileTree.ne_present_of_mkdirs hstop) (Option.some.inj h)]
          exact Option.some_ne_none _

/-- What a registration of a job leaves: the row of the job is inserted, and then the
    directories are made, or it fails with the jobs as they were. -/
theorem gliteJppsbeRegisterJob_cases
    (h : gliteJppsbeRegisterJob config md5 o job owner s = .ok (s', ret)) :
    (ret ≠ none ∧ s'.tables.jobs = s.tables.jobs ∧
      ∀ ju, jobidUniquePathname job true = .ok ju → ¬Inserts md5 o job owner ju s) ∨
    ∃ ju, jobidUniquePathname job true = .ok ju ∧ Inserts md5 o job owner ju s ∧
      s'.tables.jobs.rows = s.tables.jobs.rows ++ [registeredRow md5 o job owner ju] ∧
      (s'.tree, ret) = mkdirData config o (registeredRow md5 o job owner ju) s.tree := by
  rw [gliteJppsbeRegisterJob] at h
  cases hju : jobidUniquePathname job true with
  | error e =>
    rw [hju] at h
    have hfailed : ret ≠ none ∧ s'.tables.jobs = s.tables.jobs := by
      cases e with
      | errno e =>
        cases h
        exact ⟨Option.some_ne_none _, rfl⟩
      | fault | hang =>
        dsimp only at h
        split_ifs at h
        cases h
        exact ⟨Option.some_ne_none _, rfl⟩
    exact .inl ⟨hfailed.1, hfailed.2, nofun⟩
  | ok ju =>
    rw [hju] at h
    dsimp only at h
    split_ifs at h with hpathname hstored hmemory hinserted
    · cases h
      refine .inl ⟨Option.some_ne_none _, rfl, fun _ _ hi => ?_⟩
      rw [hi.1] at hpathname
      cases hpathname
    · cases h
      refine .inl ⟨Option.some_ne_none _, rfl, fun _ _ hi => ?_⟩
      rw [hi.2.1] at hstored
      cases hstored
    · cases h
      refine .inl ⟨Option.some_ne_none _, rfl, fun _ _ hi => ?_⟩
      rw [hi.2.2.1, hi.2.2.2.1] at hmemory
      rcases hmemory with hmemory | hmemory <;> cases hmemory
    · cases h
      refine .inl ⟨Option.some_ne_none _, rfl, fun _ _ hi => ?_⟩
      rw [hi.2.2.2.2.1] at hinserted
      cases hinserted
    · have hjobs : (storeUser s.tables (md5 owner) owner).jobs = s.tables.jobs := rfl
      rw [hjobs] at h
      cases hi : s.tables.jobs.insert (registeredRow md5 o job owner ju) with
      | none =>
        rw [hi] at h
        cases h
        obtain ⟨row, hrow, hclash⟩ := Table.insert_eq_none.1 hi
        refine .inl ⟨Option.some_ne_none _, rfl, fun ju' hju' hi => ?_⟩
        obtain rfl := Except.ok.inj hju'
        exact hi.2.2.2.2.2 row hrow hclash
      | some jobs =>
        rw [hi] at h
        cases h
        obtain ⟨hno, hrows⟩ := Table.insert_eq_some.1 hi
        obtain ⟨hdbtime, hstmt⟩ := not_or.1 hmemory
        exact .inr ⟨ju, rfl, ⟨Bool.eq_true_of_not_eq_false hpathname,
          Bool.eq_true_of_not_eq_false hstored, Bool.eq_true_of_not_eq_false hdbtime,
          Bool.eq_true_of_not_eq_false hstmt, Bool.eq_true_of_not_eq_false hinserted, hno⟩, hrows, rfl⟩

/-- Once the row is inserted, all depends on the directories. -/
theorem allOrNothing_iff_canMakeData (hmd5 : IsMd5 md5)
    (h : gliteJppsbeRegisterJob config md5 o job owner s = .ok (s', ret))
    (hju : jobidUniquePathname job true = .ok ju) (hinserts : Inserts md5 o job owner ju s) :
    AllOrNothing config md5 job owner s s' ret ↔
      CanMakeData config o (registeredRow md5 o job owner ju) s.tree := by
  rcases gliteJppsbeRegisterJob_cases h with ⟨-, -, hno⟩ | ⟨ju', hju', -, hrows, hmade⟩
  · exact absurd hinserts (hno ju hju)
  obtain rfl := Except.ok.inj (hju'.symm.trans hju)
  have hrow : registeredRow md5 o job owner ju' ∈ s'.tables.jobs.rows :=
    hrows ▸ List.mem_append_right _ (List.mem_singleton_self _)
  rw [← mkdirData_iff (isName_of_mem_dataNames hmd5 hju), ← hmade]
  constructor
  · intro hall
    have hret : ret = none := by
      by_contra hret
      have := congrArg (List.length ∘ Table.rows) (hall.failure hret)
      rw [Function.comp_apply, Function.comp_apply, hrows, List.length_append] at this
      exact absurd this (Nat.succ_ne_self _)
    obtain ⟨row, hmem, hjob, -, hdir⟩ := hall.success hret
    obtain rfl := Table.eq_of_clash hmem hrow (.inr hjob)
    exact ⟨hret, hdir _ List.prefix_rfl⟩
  · rintro ⟨hret, hdir⟩
    exact ⟨fun h => absurd hret h, fun _ => ⟨_, hrow, rfl, rfl, fun p hp => hdir.of_prefix hp⟩⟩

/-- A registration leaves nothing, or all that belongs to a job, exactly when nothing is in
    the way of the directories of a job whose row is inserted. -/
theorem allOrNothing_iff (hmd5 : IsMd5 md5)
    (h : gliteJppsbeRegisterJob config md5 o job owner s = .ok (s', ret)) :
    AllOrNothing config md5 job owner s s' ret ↔
      ∀ ju, jobidUniquePathname job true = .ok ju → Inserts md5 o job owner ju s →
        CanMakeData config o (registeredRow md5 o job owner ju) s.tree := by
  rcases gliteJppsbeRegisterJob_cases h with ⟨hret, hjobs, hno⟩ | ⟨ju, hju, hinserts, -⟩
  · exact iff_of_true ⟨fun _ => hjobs, fun h => absurd h hret⟩ fun ju hju hi => absurd hi (hno ju hju)
  · rw [allOrNothing_iff_canMakeData hmd5 h hju hinserts]
    refine ⟨fun h ju' hju' _ => ?_, fun h => h ju hju hinserts⟩
    rwa [Except.ok.inj (hju'.symm.trans hju)]

theorem exists_gliteJppsbeRegisterJob (hju : jobidUniquePathname job true = .ok ju) :
    ∃ s' ret, gliteJppsbeRegisterJob config md5 o job owner s = .ok (s', ret) := by
  rw [gliteJppsbeRegisterJob, hju]
  dsimp only
  split_ifs
  · exact ⟨_, _, rfl⟩
  · exact ⟨_, _, rfl⟩
  · exact ⟨_, _, rfl⟩
  · exact ⟨_, _, rfl⟩
  · split <;> exact ⟨_, _, rfl⟩

end Registered

/-! ## The first registration -/

/-- The storage when it is new: its directory, and nothing in it. -/
def newTree : FileTree Bytes where
  node p := if p <+: [ascii "jp"] then some .directory else none
  parent p c h := if_pos ((List.prefix_append p [c]).trans (by
    by_contra hp
    exact h (if_neg hp)))

def newStorage : RegisterState := ⟨⟨.empty, .empty, .empty⟩, newTree⟩

/-- Nothing fails but, perhaps, making a directory. -/
def refusing (refused : List Bytes → Option Refusal) : RegisterOutcome :=
  ⟨0, true, true, true, true, true, true, true, refused⟩

/-- The disk is broken below the storage. -/
def brokenData (p : List Bytes) : Option Refusal :=
  if p = [ascii "jp", ascii "data"] then some ⟨Errno.EIO, by decide⟩ else none

theorem sampleJob_pathname : jobidUniquePathname sampleJob.dgJobid true = .ok sampleJob.jobid := by
  decide

theorem inserts_newStorage (refused : List Bytes → Option Refusal) :
    Inserts sampleMd5 (refusing refused) sampleJob.dgJobid (ascii "/CN=alice") sampleJob.jobid
      newStorage := ⟨rfl, rfl, rfl, rfl, rfl, nofun⟩

theorem newTree_isDir : newTree.IsDir (strtok (ch '/') sampleConfig.internalPath) := by
  have hpath : strtok (ch '/') sampleConfig.internalPath = [ascii "jp"] := by decide
  rw [hpath, FileTree.IsDir]
  decide

/-- When nothing is refused, the job is there with its directory. -/
theorem allOrNothing_iff_sample : ∃ s' ret,
    gliteJppsbeRegisterJob sampleConfig sampleMd5 (refusing fun _ => none) sampleJob.dgJobid
      (ascii "/CN=alice") newStorage = .ok (s', ret) ∧
    AllOrNothing sampleConfig sampleMd5 sampleJob.dgJobid (ascii "/CN=alice") newStorage s' ret := by
  obtain ⟨s', ret, h⟩ := @exists_gliteJppsbeRegisterJob sampleConfig sampleMd5
    (refusing fun _ => none) _ (ascii "/CN=alice") _ newStorage sampleJob_pathname
  refine ⟨s', ret, h, (allOrNothing_iff isMd5_sampleMd5 h).2 fun ju hju _ => ?_⟩
  obtain rfl := Except.ok.inj (hju.symm.trans sampleJob_pathname)
  refine ⟨rfl, rfl, newTree_isDir, ⟨?_, rfl⟩, ⟨?_, rfl⟩, ⟨?_, rfl⟩, .inr ⟨?_, rfl⟩⟩ <;> decide

/-- When the first directory is refused, the registration fails, and the job is there. -/
theorem not_allOrNothing_brokenData : ∃ s' ret,
    gliteJppsbeRegisterJob sampleConfig sampleMd5 (refusing brokenData) sampleJob.dgJobid
      (ascii "/CN=alice") newStorage = .ok (s', ret) ∧
    ¬AllOrNothing sampleConfig sampleMd5 sampleJob.dgJobid (ascii "/CN=alice") newStorage s' ret := by
  obtain ⟨s', ret, h⟩ := @exists_gliteJppsbeRegisterJob sampleConfig sampleMd5
    (refusing brokenData) _ (ascii "/CN=alice") _ newStorage sampleJob_pathname
  have hiff := allOrNothing_iff_canMakeData isMd5_sampleMd5 h sampleJob_pathname
    (inserts_newStorage brokenData)
  refine ⟨s', ret, h, mt hiff.1 ?_⟩
  rintro ⟨-, -, -, ⟨-, hrefused⟩, -⟩
  cases hrefused

end JobProvenance
