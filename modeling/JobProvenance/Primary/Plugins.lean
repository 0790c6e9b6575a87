import JobProvenance.Primary.Attrs

/-!
# File plugins

The plugins of a primary storage read values of attributes from the files that
were uploaded for a job. A plugin says which namespaces of attributes it knows
and which classes of files it reads; what it returns may have any name and any
origin.

* `pluginAttrs`: the values the plugins find of an attribute, and
  `getAttrsWith`: the values of some attributes of a job, which is `getAttrs`
  when the plugins return values of the attribute they were asked for
  (`getAttrsWith_eq`);
* `system_of_getAttrsWith`: of what is returned for a job, exactly the owner and
  the time of registration in its row are said to come from the system, whatever
  its tags, its files and the plugins are.
-/

namespace JobProvenance

/-- A plugin: the classes it reads with their URIs, and its operations, which
    may fail in any way; `H` are the handles of the plugins. -/
structure FilePlugin (H : Type) where
  namespaces : List Bytes
  types : List (Bytes × Bytes)
  «open» : Fhandle → Bytes → Exec H
  attr : H → Bytes → Exec (List Attrval)

variable {H : Type}

/-- The namespace of an attribute: what is in front of its last colon. -/
def attrNamespace (attr : Bytes) : Bytes :=
  match afterLast (ch ':') attr with
  | some rest => attr.take (attr.length - (rest.length + 1))
  | none => []

theorem attrNamespace_append_cons {f : Bytes} (h : ch ':' ∉ f) (ns : Bytes) :
    attrNamespace (ns ++ ch ':' :: f) = ns := by
  rw [attrNamespace, afterLast_append_cons h]
  dsimp only
  rw [List.length_append, List.length_cons, Nat.add_sub_cancel, List.take_left']
  rfl

/-- An attribute with a colon is its namespace, a colon and a name without one. -/
theorem exists_of_mem_attr {attr : Bytes} (h : ch ':' ∈ attr) :
    ∃ f, ch ':' ∉ f ∧ attr = attrNamespace attr ++ ch ':' :: f := by
  obtain ⟨f, hf⟩ : ∃ f, afterLast (ch ':') attr = some f := ⟨_, if_pos h⟩
  obtain ⟨ns, hns⟩ := exists_of_afterLast hf
  refine ⟨f, notMem_of_afterLast hf, ?_⟩
  conv_rhs => rw [hns, attrNamespace_append_cons (notMem_of_afterLast hf)]
  exact hns

/-- The plugins of a namespace, each once for every time it names it. -/
def pluginsOf (plugins : List (FilePlugin H)) (namespace' : Bytes) : List (FilePlugin H) :=
  plugins.flatMap fun p => (p.namespaces.filter (· = namespace')).map fun _ => p

/-- The names of the files of a class; a name is used when it is freed already. -/
def getNames (t : Tables) (job cls : Bytes) : Exec (List (Option Bytes)) :=
  let files := (t.jobs.rows.filter (·.dgJobid = job)).flatMap fun j =>
    t.files.rows.filter fun f => f.jobid = j.jobid ∧ f.state = .committed
  let names := (files.filter (·.filename.takeWhile (· ≠ ch '.') = cls)).map fun f =>
    afterFirst (ch '.') f.filename
  if names.all (· = none) then .ok names else .error .fault

/-- A value of a plugin, as it is returned. -/
def fileValue (uri : Bytes) (name : Option Bytes) (v : Attrval) : Attrval :=
  { v with
    origin := .file
    originDetail := some (v.originDetail.getD (uri ++ ch ' ' :: name.getD [])) }

/-- What a call returns, nothing when it fails. -/
def ignoringErrors {α : Type} (x : Exec (List α)) : Exec (List α) :=
  match x with
  | .error (.errno _) => .ok []
  | r => r

section Plugins

variable (plugins : List (FilePlugin H)) (env : Env) (s : PsState)

/-- The values of an attribute a plugin finds in the files of a class, each of which is
    opened anew. A file that is open from the attribute before is in fact used again, by a
    plugin that may remember what it was asked: that is `processFilesCached`. -/
def processFiles (job attr : Bytes) (p : FilePlugin H) (cls uri : Bytes) : Exec (List Attrval) := do
  let names ← getNames s.tables job cls
  let vals ← names.mapM fun name => ignoringErrors do
    let (_, h) ← openFile env.config s.tables.jobs.rows s.disk job cls name O_RDONLY
    let ph ← p.open h uri
    let myattr ← p.attr ph attr
    return myattr.map (fileValue uri name)
  return vals.flatten

/-- The values of an attribute the plugins find. -/
def pluginAttrs (job attr : Bytes) : Exec (List Attrval) := do
  let vals ← (pluginsOf plugins (attrNamespace attr)).mapM fun p => do
    let vals ← p.types.mapM fun (cls, uri) => processFiles env s job attr p cls uri
    return vals.flatten
  return vals.flatten

/-- The values of some attributes of a job. -/
def getAttrsWith (job : Bytes) (attr : List Bytes) : Exec (List Attrval) := do
  let metadata ← getJobMetadata s.tables.jobs.rows s.tables.users.rows job (attr.filter isMetadata)
  let other ← (attr.filter (!isMetadata ·)).mapM fun name => do
    let tags ← tagsNamed env s job name
    let vals ← pluginAttrs plugins env s job name
    return tags ++ vals
  let out := other.flatten ++ metadata
  if out = [] then .error (.errno .ENOENT) else return out

/-- The owner and the time of registration in the row of a job. -/
def JobInfoIs (t : Tables) (job owner : Bytes) (regTime : ℤ) : Prop :=
  ∃ j ∈ t.jobs.rows, ∃ u ∈ t.users.rows,
    j.dgJobid = job ∧ u.userid = j.owner ∧ u.certSubj = owner ∧ j.regTime = regTime

/-- The values of the metadata that are asked for. -/
def metadataValues (owner : Bytes) (regTime : ℤ) (attr : List Bytes) : List Attrval :=
  (attr.filter isMetadata).map fun name =>
    systemValue name (if name = GLITE_JP_ATTR_OWNER then owner else regtimeText regTime) regTime

variable {plugins env s} {job name cls uri : Bytes} {attr : List Bytes} {p : FilePlugin H}
  {vals out : List Attrval}

theorem ignoringErrors_eq_ok {α : Type} {x : Exec (List α)} {as : List α}
    (h : ignoringErrors x = .ok as) : x = .ok as ∨ as = [] := by
  unfold ignoringErrors at h
  split at h
  · exact .inr (Except.ok.inj h).symm
  · exact .inl h

theorem origin_of_processFiles (h : processFiles env s job name p cls uri = .ok vals) :
    ∀ v ∈ vals, v.origin = .file := by
  obtain ⟨names, -, h⟩ := Exec.bind_eq_ok.1 h
  obtain ⟨valss, hvals, h⟩ := Exec.bind_eq_ok.1 h
  obtain rfl := Except.ok.inj h
  intro v hv
  obtain ⟨vs, hvs, hv⟩ := List.mem_flatten.1 hv
  obtain ⟨n, -, hn⟩ := (Exec.mem_of_mapM hvals).2 vs hvs
  rcases ignoringErrors_eq_ok hn with hn | rfl
  · obtain ⟨⟨disk, fh⟩, -, hn⟩ := Exec.bind_eq_ok.1 hn
    obtain ⟨ph, -, hn⟩ := Exec.bind_eq_ok.1 hn
    obtain ⟨myattr, -, hn⟩ := Exec.bind_eq_ok.1 hn
    obtain rfl := Except.ok.inj hn
    obtain ⟨w, -, rfl⟩ := List.mem_map.1 hv
    rfl
  · exact absurd hv List.not_mem_nil

/-- Whatever a plugin says, its values come from files. -/
theorem origin_of_pluginAttrs (h : pluginAttrs plugins env s job name = .ok vals) :
    ∀ v ∈ vals, v.origin = .file := by
  obtain ⟨valss, hvals, h⟩ := Exec.bind_eq_ok.1 h
  obtain rfl := Except.ok.inj h
  intro v hv
  obtain ⟨vs, hvs, hv⟩ := List.mem_flatten.1 hv
  obtain ⟨p, -, hp⟩ := (Exec.mem_of_mapM hvals).2 vs hvs
  obtain ⟨vss, hvss, hp⟩ := Exec.bind_eq_ok.1 hp
  obtain rfl := Except.ok.inj hp
  obtain ⟨ws, hws, hv⟩ := List.mem_flatten.1 hv
  obtain ⟨⟨cls, uri⟩, -, hproc⟩ := (Exec.mem_of_mapM hvss).2 ws hws
  exact origin_of_processFiles hproc v hv

/-- What is returned is what the tables have, behind values that do not come
    from the system. -/
theorem getAttrsWith_eq_ok (h : getAttrsWith plugins env s job attr = .ok out) :
    ∃ other metadata, out = other ++ metadata ∧ (∀ v ∈ other, v.origin ≠ .system) ∧
      getJobMetadata s.tables.jobs.rows s.tables.users.rows job (attr.filter isMetadata) =
        .ok metadata := by
  obtain ⟨metadata, hmeta, h⟩ := Exec.bind_eq_ok.1 h
  obtain ⟨other, hother, h⟩ := Exec.bind_eq_ok.1 h
  dsimp only at h
  split_ifs at h
  obtain rfl := Except.ok.inj h
  refine ⟨_, metadata, rfl, fun v hv => ?_, hmeta⟩
  obtain ⟨vs, hvs, hv⟩ := List.mem_flatten.1 hv
  obtain ⟨name, -, hn⟩ := (Exec.mem_of_mapM hother).2 vs hvs
  obtain ⟨tags, htags, hn⟩ := Exec.bind_eq_ok.1 hn
  obtain ⟨vals, hvals, hn⟩ := Exec.bind_eq_ok.1 hn
  obtain rfl := Except.ok.inj hn
  rcases List.mem_append.1 hv with hv | hv
  · rw [(mem_of_tagsNamed htags v hv).2]
    exact nofun
  · rw [origin_of_pluginAttrs hvals v hv]
    exact nofun

theorem jobInfoIs_of_getJobInfo {owner : Bytes} {regTime : ℤ}
    (h : getJobInfo s.tables.jobs.rows s.tables.users.rows job = .ok (owner, regTime)) :
    JobInfoIs s.tables job owner regTime := by
  unfold getJobInfo at h
  split at h
  · rename_i info hinfo
    obtain rfl := Except.ok.inj h
    obtain ⟨j, hj, hju⟩ := List.exists_of_findSome?_eq_some hinfo
    split_ifs at hju with hjob
    obtain ⟨u, hu, hinfo⟩ := Option.map_eq_some_iff.1 hju
    obtain ⟨rfl, rfl⟩ := Prod.mk.inj hinfo
    exact ⟨j, hj, u, List.mem_of_find?_eq_some hu, hjob, by simpa using List.find?_some hu, rfl, rfl⟩
  · cases h

/-- The metadata are those in the row of the job. -/
theorem metadata_of_getJobMetadata
    (h : getJobMetadata s.tables.jobs.rows s.tables.users.rows job (attr.filter isMetadata) =
      .ok out) : ∃ owner regTime, (attr.filter isMetadata ≠ [] →
        JobInfoIs s.tables job owner regTime) ∧ out = metadataValues owner regTime attr := by
  have hname : ∀ name ∈ attr.filter isMetadata, ∀ v,
      jobMetadata s.tables.jobs.rows s.tables.users.rows job name = .ok v →
        ∃ owner regTime, getJobInfo s.tables.jobs.rows s.tables.users.rows job =
            .ok (owner, regTime) ∧
          v = systemValue name (if name = GLITE_JP_ATTR_OWNER then owner else regtimeText regTime)
            regTime := by
    intro name hn v hv
    unfold jobMetadata at hv
    rw [if_pos (List.mem_filter.1 hn).2] at hv
    obtain ⟨⟨owner, regTime⟩, hinfo, hv⟩ := Exec.bind_eq_ok.1 hv
    exact ⟨owner, regTime, hinfo, (Except.ok.inj hv).symm⟩
  cases hinfo : getJobInfo s.tables.jobs.rows s.tables.users.rows job with
  | ok info =>
    obtain ⟨owner, regTime⟩ := info
    refine ⟨owner, regTime, fun _ => jobInfoIs_of_getJobInfo hinfo, ?_⟩
    have hout := @Exec.flatMap_of_mapM _ _ _ _ (fun v => [v]) (fun name => [systemValue name
      (if name = GLITE_JP_ATTR_OWNER then owner else regtimeText regTime) regTime]) _ _ h
      fun name hn v hv => by
        obtain ⟨owner', regTime', hinfo', rfl⟩ := hname name hn v hv
        obtain ⟨rfl, rfl⟩ := Prod.mk.inj (Except.ok.inj (hinfo.symm.trans hinfo'))
        rfl
    rw [List.flatMap_singleton'] at hout
    rw [hout, metadataValues, List.map_eq_flatMap]
  | error e =>
    -- without a row nothing can have been asked for
    have hnil : attr.filter isMetadata = [] := by
      rw [List.eq_nil_iff_forall_not_mem]
      intro name hn
      obtain ⟨v, -, hv⟩ := (Exec.mem_of_mapM h).1 name hn
      obtain ⟨owner, regTime, hinfo', -⟩ := hname name hn v hv
      cases hinfo.symm.trans hinfo'
    rw [hnil] at h
    refine ⟨[], 0, fun hne => absurd hnil hne, ?_⟩
    rw [metadataValues, hnil]
    exact (Except.ok.inj h).symm

theorem origin_of_metadataValues {owner : Bytes} {regTime : ℤ} :
    ∀ v ∈ metadataValues owner regTime attr, v.origin = .system := by
  intro v hv
  obtain ⟨name, -, rfl⟩ := List.mem_map.1 hv
  rfl

/-- The values that are said to come from the system are the metadata. -/
theorem filter_getAttrsWith (h : getAttrsWith plugins env s job attr = .ok out) :
    ∃ metadata, getJobMetadata s.tables.jobs.rows s.tables.users.rows job (attr.filter isMetadata) =
        .ok metadata ∧ out.filter (·.origin = .system) = metadata := by
  obtain ⟨other, metadata, rfl, hother, hmeta⟩ := getAttrsWith_eq_ok h
  refine ⟨metadata, hmeta, ?_⟩
  have hsys : ∀ v ∈ metadata, v.origin = .system := by
    obtain ⟨owner, regTime, -, rfl⟩ := metadata_of_getJobMetadata hmeta
    exact origin_of_metadataValues
  rw [List.filter_append, List.filter_eq_nil_iff.2 fun v hv => by simpa using hother v hv,
    List.filter_eq_self.2 fun v hv => decide_eq_true (hsys v hv), List.nil_append]

/-- Whatever the tags and the files of a job and the plugins are, the values that
    are said to come from the system are the owner and the time of registration
    in the job's row, as far as they were asked for. -/
theorem system_of_getAttrsWith {s₁ s₂ : PsState} {out₁ out₂ : List Attrval}
    (hjobs : s₁.tables.jobs = s₂.tables.jobs) (husers : s₁.tables.users = s₂.tables.users)
    (h₁ : getAttrsWith plugins env s₁ job attr = .ok out₁)
    (h₂ : getAttrsWith plugins env s₂ job attr = .ok out₂) :
    out₁.filter (·.origin = .system) = out₂.filter (·.origin = .system) ∧
    ∃ owner regTime, (attr.filter isMetadata ≠ [] → JobInfoIs s₁.tables job owner regTime) ∧
      out₁.filter (·.origin = .system) = metadataValues owner regTime attr := by
  obtain ⟨metadata₁, hm₁, hf₁⟩ := filter_getAttrsWith h₁
  obtain ⟨metadata₂, hm₂, hf₂⟩ := filter_getAttrsWith h₂
  rw [← hjobs, ← husers] at hm₂
  rw [hf₁, hf₂]
  exact ⟨Except.ok.inj (hm₁.symm.trans hm₂), metadata_of_getJobMetadata hm₁⟩

/-- When the plugins return values of the attribute they are asked for, this is
    how the attributes of a job are found. -/
theorem getAttrsWith_eq (h : ∀ name ∈ attr, isMetadata name = false →
      pluginAttrs plugins env s job name = .ok (env.plugins.attr job name)) :
    getAttrsWith plugins env s job attr = getAttrs env s job attr := by
  have hmap : ((attr.filter (!isMetadata ·)).mapM fun name => do
        let tags ← tagsNamed env s job name
        let vals ← pluginAttrs plugins env s job name
        return tags ++ vals : Exec (List (List Attrval))) =
      (attr.filter (!isMetadata ·)).mapM fun name => do
        let tags ← tagsNamed env s job name
        return tags ++ env.plugins.attr job name := by
    refine Exec.mapM_congr fun name hn => ?_
    obtain ⟨hn, hmeta⟩ := List.mem_filter.1 hn
    rw [h name hn (by simpa using hmeta)]
    rfl
  rw [getAttrsWith, getAttrs, hmap]

end Plugins

/-! ## A plugin -/

/-- A plugin that makes up an owner. -/
def owningPlugin : FilePlugin Unit where
  namespaces := [ascii "urn:app"]
  types := [(ascii "lb", ascii "urn:lb")]
  «open» _ _ := .ok ()
  attr _ _ := .ok [systemValue GLITE_JP_ATTR_OWNER (ascii "/CN=mallory") 0]

/-- A file it reads. -/
def readFile : FileRow where
  jobid := sampleJob.jobid
  filename := ascii "lb"
  intPath := ascii "/jp/data/0123/0/abcdefghij/lb"
  extUrl := ascii "ftp://jp/data/0123/0/abcdefghij/lb"
  state := .committed
  deadline := none
  ulUserid := sampleJob.owner

/-- A storage with a job of alice, and maybe the file. -/
def aliceState (files : Table FileRow FileRow.Clash) (disk : Disk) : PsState where
  sent := []
  fed := .empty
  tables :=
    { jobs := ⟨[sampleJob], List.pairwise_singleton _ _⟩
      files := files
      users := ⟨[⟨sampleJob.owner, ascii "/CN=alice"⟩], List.pairwise_singleton _ _⟩ }
  disk := disk
  feeds := .empty

/-- The storage with the file. -/
def fileState : PsState :=
  aliceState ⟨[readFile], List.pairwise_singleton _ _⟩
    (Function.update (fun _ => none) readFile.intPath (some []))

/-- The names of what is asked for: the owner, and an attribute the plugin knows. -/
def ownerAndColor : List Bytes := [GLITE_JP_ATTR_OWNER, ascii "urn:app:color"]

theorem exists_getAttrsWith_fileState : ∃ out,
    getAttrsWith [owningPlugin] sampleEnv fileState sampleJob.dgJobid ownerAndColor = .ok out := by
  have hsome : (getAttrsWith [owningPlugin] sampleEnv fileState sampleJob.dgJobid
      ownerAndColor).toOption.isSome = true := by decide +kernel
  cases h : getAttrsWith [owningPlugin] sampleEnv fileState sampleJob.dgJobid ownerAndColor with
  | ok out => exact ⟨out, rfl⟩
  | error e => rw [h] at hsome; cases hsome

theorem exists_getAttrsWith_aliceState : ∃ out,
    getAttrsWith [owningPlugin] sampleEnv (aliceState .empty fun _ => none) sampleJob.dgJobid
      ownerAndColor = .ok out := ⟨_, rfl⟩

theorem system_of_getAttrsWith_alice : ∃ out₁ out₂,
    getAttrsWith [owningPlugin] sampleEnv fileState sampleJob.dgJobid ownerAndColor = .ok out₁ ∧
    getAttrsWith [owningPlugin] sampleEnv (aliceState .empty fun _ => none) sampleJob.dgJobid
      ownerAndColor = .ok out₂ ∧
    out₁.filter (·.origin = .system) = out₂.filter (·.origin = .system) ∧
    ∃ owner regTime, (ownerAndColor.filter isMetadata ≠ [] →
        JobInfoIs fileState.tables sampleJob.dgJobid owner regTime) ∧
      out₁.filter (·.origin = .system) = metadataValues owner regTime ownerAndColor := by
  obtain ⟨out₁, h₁⟩ := exists_getAttrsWith_fileState
  obtain ⟨out₂, h₂⟩ := exists_getAttrsWith_aliceState
  have hjobs : fileState.tables.jobs = (aliceState .empty fun _ => none).tables.jobs := rfl
  have husers : fileState.tables.users = (aliceState .empty fun _ => none).tables.users := rfl
  exact ⟨out₁, out₂, h₁, h₂, system_of_getAttrsWith hjobs husers h₁ h₂⟩

end JobProvenance
