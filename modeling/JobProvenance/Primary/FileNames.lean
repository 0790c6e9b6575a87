import JobProvenance.Primary.JobFiles

/-!
# The names of files

A file of a job is kept under its class and, behind a dot, its name, if it has one. What
asks for the files of a job takes this apart again at the first dot: `destination_info` for
the file of an upload, `get_names` for the files of a class, the latter with pointers into
filenames that are freed.

* `destinationInfo_eq_ok`: what is found for a destination;
* `getNames_eq`: `getNames` is the list of what `getNamesRow` finds in the filenames;
* `splitFilename_dataBasename`: a class without a dot and a name are found again;
* `uniquelyDecodable_iff`: all that takes a filename apart finds the class and the name
  exactly when there is no name.
-/

namespace JobProvenance

/-! ## Filenames -/

/-- A string up to its first dot, where it is cut, and what is behind the dot, if there is
    one. -/
def splitFilename (filename : Bytes) : Bytes × Option Bytes :=
  (filename.takeWhile (· ≠ ch '.'), afterFirst (ch '.') filename)

/-- The job, the class and the name of the file that is uploaded to a destination. -/
def destinationInfo (t : Tables) (destination : Bytes) : Exec (Bytes × Bytes × Option Bytes) :=
  let rows := t.jobs.rows.flatMap fun j => (t.files.rows.filter fun f =>
    f.extUrl = destination ∧ j.jobid = f.jobid).map fun f => (j.dgJobid, f.filename)
  match rows with
  | [] => .error (.errno .ENOENT)
  | (job, filename) :: _ => .ok (job, splitFilename filename)

/-- What reading a name gives that points behind the dot of a filename, which is freed. -/
def readFreed : Option Bytes → Exec (Option Bytes)
  | none => .ok none
  | some _ => .error .fault

/-- What the name of a file of a class is read as; `none` when the file is of another
    class. -/
def getNamesRow (cls filename : Bytes) : Option (Exec (Option Bytes)) :=
  let (file, dot) := splitFilename filename
  if file = cls then some (readFreed dot) else none

/-- All that takes the filename of a class and a name apart finds them, and no other file
    of the job has its filename, its path or its URL. -/
structure UniquelyDecodable (cls : Bytes) (name : Option Bytes) : Prop where
  info : splitFilename (dataBasename cls name) = (cls, name)
  names : ∀ cls', ch '.' ∉ cls' →
    getNamesRow cls' (dataBasename cls name) = if cls' = cls then some (.ok name) else none
  distinct : ∀ cls' name', ch '.' ∉ cls' → (cls', name') ≠ (cls, name) →
    ∀ config md5 now now' t t' ju peer peer' r r' t₁ t₁',
      t.jobs.rows.find? (·.jobid = ju) = t'.jobs.rows.find? (·.jobid = ju) →
      execStmt config md5 now t (.selectJob ju cls name peer) = (t₁, .next (.storePeer r peer)) →
      execStmt config md5 now' t' (.selectJob ju cls' name' peer') =
        (t₁', .next (.storePeer r' peer')) →
      r.filename ≠ r'.filename ∧ r.intPath ≠ r'.intPath ∧ r.extUrl ≠ r'.extUrl

/-! ## What is found -/

section Split

variable {cls cls' : Bytes} {name name' : Option Bytes}

theorem afterFirst_of_notMem {c : UInt8} {s : Bytes} (h : c ∉ s) : afterFirst c s = none := by
  have hdrop : s.dropWhile (· ≠ c) = [] :=
    List.dropWhile_eq_nil_iff.2 fun b hb => decide_eq_true fun he => h (he ▸ hb)
  rw [afterFirst, hdrop]

theorem afterFirst_append_cons {c : UInt8} {a : Bytes} (h : c ∉ a) (b : Bytes) :
    afterFirst c (a ++ c :: b) = some b := by
  have hne : ∀ x ∈ a, decide (x ≠ c) = true := fun x hx => decide_eq_true fun he => h (he ▸ hx)
  rw [afterFirst, List.dropWhile_append_of_pos hne]
  simp

/-- A class without a dot and a name are found again. -/
theorem splitFilename_dataBasename (h : ch '.' ∉ cls) (name : Option Bytes) :
    splitFilename (dataBasename cls name) = (cls, name) := by
  have hne : ∀ b ∈ cls, decide (b ≠ ch '.') = true := fun b hb =>
    decide_eq_true fun he => h (he ▸ hb)
  cases name with
  | none =>
    have hbase : dataBasename cls none = cls := List.append_nil cls
    rw [hbase, splitFilename, afterFirst_of_notMem h, List.takeWhile_eq_self_iff.2 hne]
  | some name =>
    have hbase : dataBasename cls (some name) = cls ++ ch '.' :: name := rfl
    rw [hbase, splitFilename, afterFirst_append_cons h, List.takeWhile_append_of_pos hne]
    simp

/-- Different files have different filenames. -/
theorem dataBasename_inj (h : ch '.' ∉ cls) (h' : ch '.' ∉ cls')
    (heq : dataBasename cls name = dataBasename cls' name') : (cls, name) = (cls', name') := by
  rw [← splitFilename_dataBasename h, heq, splitFilename_dataBasename h']

/-- What is found for a destination is the file that is uploaded to it, with its class and
    name. -/
theorem destinationInfo_eq_ok {t : Tables} {destination job : Bytes} {info : Bytes × Option Bytes}
    (h : destinationInfo t destination = .ok (job, info)) :
    ∃ j ∈ t.jobs.rows, j.dgJobid = job ∧ ∃ f ∈ t.files.rows, f.extUrl = destination ∧
      f.jobid = j.jobid ∧ ∀ cls name, ch '.' ∉ cls → f.filename = dataBasename cls name →
        info = (cls, name) := by
  rw [destinationInfo] at h
  split at h
  · cases h
  · rename_i job' filename rows hrows
    obtain ⟨rfl, rfl⟩ := Prod.mk.inj (Except.ok.inj h)
    have hmem := List.mem_cons_self (a := (job', filename)) (l := rows)
    rw [← hrows, List.mem_flatMap] at hmem
    obtain ⟨j, hj, hmem⟩ := hmem
    obtain ⟨f, hf, heq⟩ := List.mem_map.1 hmem
    obtain ⟨rfl, rfl⟩ := Prod.mk.inj heq
    obtain ⟨hfile, hkey⟩ := List.mem_filter.1 hf
    obtain ⟨hurl, hjob⟩ := of_decide_eq_true hkey
    refine ⟨j, hj, rfl, f, hfile, hurl, hjob.symm, fun cls name hdot hname => ?_⟩
    rw [hname, splitFilename_dataBasename hdot]

theorem getNamesRow_dataBasename (h : ch '.' ∉ cls) (name : Option Bytes) (cls' : Bytes) :
    getNamesRow cls' (dataBasename cls name) =
      if cls' = cls then some (readFreed name) else none := by
  rw [getNamesRow, splitFilename_dataBasename h]
  exact if_congr eq_comm rfl rfl

/-- The row of a file that is uploaded. -/
theorem storePeer_of_selectJob {config : Config} {md5 : Bytes → Bytes} {now : ℤ}
    {t t₁ : Tables} {ju peer : Bytes} {r : FileRow}
    (h : execStmt config md5 now t (.selectJob ju cls name peer) =
      (t₁, .next (.storePeer r peer))) : ∃ row, t.jobs.rows.find? (·.jobid = ju) = some row ∧
      r.filename = dataBasename cls name ∧
      r.intPath = dataPath config.internalPath row.owner row.regTime ju (dataBasename cls name) ∧
      r.extUrl = dataPath config.externalPath row.owner row.regTime ju (dataBasename cls name) := by
  rw [execStmt] at h
  cases hrow : t.jobs.rows.find? (·.jobid = ju) with
  | none =>
    rw [hrow] at h
    cases (Prod.mk.inj h).2
  | some row =>
    rw [hrow] at h
    cases (Prod.mk.inj h).2
    exact ⟨row, rfl, rfl, rfl, rfl⟩

end Split

/-! ## The files of a class -/

section Names

/-- Names are read when there are none. -/
theorem mapM_readFreed (names : List (Option Bytes)) : names.mapM readFreed =
    if names.all (· = none) then .ok names else .error .fault := by
  induction names with
  | nil => rfl
  | cons name names ih =>
    rw [List.mapM_cons, ih]
    cases name with
    | none =>
      rw [readFreed, Exec.ok_bind, List.all_cons]
      simp only [decide_true, Bool.true_and]
      split_ifs <;> rfl
    | some name => rfl

/-- The names of the files of a class are what is found in the filenames. -/
theorem getNames_eq (t : Tables) (job cls : Bytes) : getNames t job cls =
    (((t.jobs.rows.filter (·.dgJobid = job)).flatMap fun j =>
      t.files.rows.filter fun f => f.jobid = j.jobid ∧ f.state = .committed).filterMap fun f =>
        getNamesRow cls f.filename).mapM id := by
  rw [getNames]
  generalize ((t.jobs.rows.filter (·.dgJobid = job)).flatMap fun j =>
    t.files.rows.filter fun f => f.jobid = j.jobid ∧ f.state = .committed) = files
  have hrows : files.filterMap (fun f => getNamesRow cls f.filename) =
      ((files.filter (·.filename.takeWhile (· ≠ ch '.') = cls)).map fun f =>
        afterFirst (ch '.') f.filename).map readFreed := by
    induction files with
    | nil => rfl
    | cons f files ih =>
      rw [List.filterMap_cons, List.filter_cons, getNamesRow, splitFilename, ih]
      dsimp only
      by_cases hf : f.filename.takeWhile (· ≠ ch '.') = cls
      · rw [if_pos hf, if_pos (decide_eq_true hf)]
        rfl
      · rw [if_neg hf, if_neg fun h => hf (of_decide_eq_true h)]
  rw [hrows, List.mapM_map]
  exact (mapM_readFreed _).symm

end Names

/-! ## Unique decoding -/

/-- A class without a dot and a name are found again by all that takes their filename
    apart exactly when there is no name; a name is read that is freed already. -/
theorem uniquelyDecodable_iff {cls : Bytes} (h : ch '.' ∉ cls) (name : Option Bytes) :
    UniquelyDecodable cls name ↔ name = none := by
  constructor
  · intro hdec
    have hname := hdec.names cls h
    rw [getNamesRow_dataBasename h, if_pos rfl, if_pos rfl] at hname
    cases name with
    | none => rfl
    | some name => cases Option.some.inj hname
  · rintro rfl
    refine ⟨splitFilename_dataBasename h none, fun cls' _ => getNamesRow_dataBasename h none cls',
      ?_⟩
    intro cls' name' h' hne config md5 now now' t t' ju peer peer' r r' t₁ t₁' hjobs hr hr'
    obtain ⟨row, hrow, hfile, hint, hext⟩ := storePeer_of_selectJob hr
    obtain ⟨row', hrow', hfile', hint', hext'⟩ := storePeer_of_selectJob hr'
    obtain rfl := Option.some.inj (hrow.symm.trans (hjobs.trans hrow'))
    have hbase : dataBasename cls none ≠ dataBasename cls' name' := fun heq =>
      hne (dataBasename_inj h h' heq).symm
    rw [hfile, hfile', hint, hint', hext, hext']
    exact ⟨hbase, fun heq => hbase (dataPath_right_inj.1 heq),
      fun heq => hbase (dataPath_right_inj.1 heq)⟩

theorem uniquelyDecodable_iff_sample :
    UniquelyDecodable (ascii "tar") none ↔ (none : Option Bytes) = none :=
  uniquelyDecodable_iff (by decide) none

/-- The name of a file is freed when it is read. -/
theorem named_file_freed :
    getNamesRow (ascii "tar") (dataBasename (ascii "tar") (some (ascii "x"))) =
        some (.error .fault) ∧
      ¬UniquelyDecodable (ascii "tar") (some (ascii "x")) := by
  refine ⟨rfl, fun h => ?_⟩
  have hname := h.names (ascii "tar") (by decide)
  cases Option.some.inj hname

end JobProvenance
