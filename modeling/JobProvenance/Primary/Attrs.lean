import JobProvenance.Primary.Feeds
import JobProvenance.Primary.Metadata
import JobProvenance.Primary.Sending
import JobProvenance.Primary.Tags
import JobProvenance.Primary.Upload

/-!
# Attributes of jobs

A primary storage finds the values of an attribute in three places: the metadata
in its tables, the tags in a file, and what the file plugins read of the files that
were uploaded. The values are put together in this order of places, but the
metadata come last.

* `PsState`: what the slaves of a primary storage share;
* `getAttrs`: the values of some attributes of a job, `find?_getAttrs`: of
  each attribute the first of them is the first of its own.
-/

namespace JobProvenance

/-- What the file plugins read of the files of a job: values of an attribute, by its
    name. -/
structure FilePlugins where
  attr : Bytes → Bytes → List Attrval
  name_eq : ∀ job name, ∀ v ∈ attr job name, v.name = name
  origin_eq : ∀ job name, ∀ v ∈ attr job name, v.origin = .file

/-- What does not change while a primary storage runs: its configuration, the libraries
    it uses, and the answers it gets from index servers. -/
structure Env where
  config : Config
  md5 : Bytes → Bytes
  plugins : FilePlugins
  escape : Bytes → Bytes
  unescape : Bytes → Bytes
  answers : ℕ → Bool

/-- What the slaves of a primary storage share. -/
structure PsState extends Outbox where
  tables : Tables
  disk : Disk
  feeds : Table FeedsRow FeedsRow.Clash

/-- A call on that; what it has done stays also when it ends early. -/
abbrev Serving := EStateM Stop PsState

/-- A call that only sends. -/
def sending {α : Type} (x : Sending α) : Serving α := fun s =>
  match x s.toOutbox with
  | .ok a box => .ok a { s with toOutbox := box }
  | .error e box => .error e { s with toOutbox := box }

instance : MonadLift Sending Serving := ⟨sending⟩

theorem sending_apply {α : Type} (x : Sending α) (s : PsState) : (liftM x : Serving α) s =
    match x s.toOutbox with
    | .ok a box => .ok a { s with toOutbox := box }
    | .error e box => .error e { s with toOutbox := box } := rfl

/-- A call that only sends changes nothing else. -/
theorem sending_eq_ok {α : Type} {x : Sending α} {a : α} {s s' : PsState} :
    (liftM x : Serving α) s = .ok a s' ↔
      ∃ box, x s.toOutbox = .ok a box ∧ s' = { s with toOutbox := box } := by
  change sending x s = _ ↔ _
  unfold sending
  cases x s.toOutbox with
  | ok b box =>
    simp only [EStateM.Result.ok.injEq, and_assoc, exists_and_left]
    constructor
    · rintro ⟨rfl, rfl⟩
      exact ⟨rfl, box, rfl, rfl⟩
    · rintro ⟨rfl, _, rfl, rfl⟩
      exact ⟨rfl, rfl⟩
  | error e box => exact iff_of_false (by simp) (by simp)

section Attrs

variable (env : Env) (s : PsState)

/-- The tags of a name; an error is ignored. -/
def tagsNamed (job name : Bytes) : Exec (List Attrval) :=
  match readTag env.config s.tables.jobs.rows s.disk job name with
  | .error (.errno _) => .ok []
  | tags => tags

/-- The values of some attributes of a job. -/
def getAttrs (job : Bytes) (attr : List Bytes) : Exec (List Attrval) := do
  let metadata ← getJobMetadata s.tables.jobs.rows s.tables.users.rows job (attr.filter isMetadata)
  let other ← (attr.filter (!isMetadata ·)).mapM fun name => do
    let tags ← tagsNamed env s job name
    return tags ++ env.plugins.attr job name
  let out := other.flatten ++ metadata
  if out = [] then .error (.errno .ENOENT) else return out

/-- The values of an attribute, none when they cannot be had. -/
def valuesOf (job name : Bytes) : List Attrval :=
  match getAttrs env s job [name] with
  | .ok values => values
  | .error _ => []

variable {env s} {job name : Bytes} {names : List Bytes} {out : List Attrval}

theorem name_of_copy {v w : Attrval} (h : v.copy = .ok w) : w.name = v.name := by
  unfold Attrval.copy at h
  split_ifs at h
  all_goals rw [← Except.ok.inj h]

theorem origin_of_copy {v w : Attrval} (h : v.copy = .ok w) : w.origin = v.origin := by
  unfold Attrval.copy at h
  split_ifs at h
  all_goals rw [← Except.ok.inj h]

/-- The tags that are returned for a name are copies of those in the file that have it. -/
theorem mem_of_tagAttr {h : TagsHandle} (ha : tagAttr h name = .ok out) :
    ∃ h', (h' = h ∨ ∃ ret, tagsread h = .ok (ret, h')) ∧
      ∀ v ∈ out, ∃ w ∈ h'.tags, w.name = name ∧ w.copy = .ok v := by
  have hrest : ∀ h : TagsHandle, (do
      if h.tags = [] then throw (.errno .ENOENT)
      let out ← (h.tags.filter (·.name = name)).mapM Attrval.copy
      if out = [] then throw (.errno .ENOENT)
      return out : Exec (List Attrval)) = .ok out →
        ∀ v ∈ out, ∃ w ∈ h.tags, w.name = name ∧ w.copy = .ok v := by
    intro h hh v hv
    split_ifs at hh
    · cases hh
    · obtain ⟨copies, hm, hh⟩ := Exec.bind_eq_ok.1 hh
      split_ifs at hh
      · cases hh
      · obtain rfl := Except.ok.inj hh
        obtain ⟨w, hw, hwv⟩ := (Exec.mem_of_mapM hm).2 v hv
        obtain ⟨hw, hname⟩ := List.mem_filter.1 hw
        exact ⟨w, hw, of_decide_eq_true hname, hwv⟩
  unfold tagAttr at ha
  split_ifs at ha
  · obtain ⟨⟨ret, h'⟩, hread, ha⟩ := Exec.bind_eq_ok.1 ha
    exact ⟨h', .inr ⟨ret, hread⟩, hrest h' ha⟩
  · exact ⟨h, .inl rfl, hrest h ha⟩

theorem origin_of_parseRecord {rec : Bytes} {tag : Attrval} (h : parseRecord rec = .ok tag) :
    tag.origin = .user := by
  unfold parseRecord at h
  split at h
  · extract_lets rp at h
    split at h
    · split at h
      · split at h
        · extract_lets value at h
          split_ifs at h
          rw [← Except.ok.inj h]
        · cases h
      · cases h
    · cases h
  · cases h

/-- The tags that are read are those of their users. -/
theorem origin_of_tagsreadFrom {h : Fhandle} {off : ℕ} {tags tags' : List Attrval} {ret : Ret}
    (hr : tagsreadFrom h off tags = .ok (ret, tags')) (ht : ∀ v ∈ tags, v.origin = .user) :
    ∀ v ∈ tags', v.origin = .user := by
  fun_induction tagsreadFrom h off tags with
  | case7 off tags r hr₁ hlen hlen' rec hrec tag hparse ih =>
    refine ih hr fun v hv => ?_
    rcases List.mem_append.1 hv with hv | hv
    · exact ht v hv
    · rw [List.mem_singleton.1 hv]
      exact origin_of_parseRecord hparse
  | case1 | case4 | case6 => cases hr
  | case2 | case3 =>
    obtain ⟨-, rfl⟩ := Prod.mk.inj (Except.ok.inj hr)
    exact ht
  | case5 =>
    obtain ⟨-, rfl⟩ := Prod.mk.inj (Except.ok.inj hr)
    exact fun v hv => absurd hv List.not_mem_nil

theorem origin_of_tagsread {h h' : TagsHandle} {ret : Ret} (hr : tagsread h = .ok (ret, h'))
    (ht : ∀ v ∈ h.tags, v.origin = .user) : ∀ v ∈ h'.tags, v.origin = .user := by
  obtain ⟨magic, -, hr⟩ := Exec.bind_eq_ok.1 hr
  split_ifs at hr
  · obtain ⟨-, rfl⟩ := Prod.mk.inj (Except.ok.inj hr)
    exact ht
  · obtain ⟨-, rfl⟩ := Prod.mk.inj (Except.ok.inj hr)
    exact ht
  · obtain ⟨⟨ret', tags⟩, hfrom, hr⟩ := Exec.bind_eq_ok.1 hr
    obtain ⟨-, rfl⟩ := Prod.mk.inj (Except.ok.inj hr)
    exact origin_of_tagsreadFrom hfrom ht

/-- A tag that is read for a name has it, and is one of a user. -/
theorem mem_of_tagsNamed {tags : List Attrval} (h : tagsNamed env s job name = .ok tags) :
    ∀ v ∈ tags, v.name = name ∧ v.origin = .user := by
  unfold tagsNamed at h
  split at h
  · obtain rfl := Except.ok.inj h
    exact fun v hv => absurd hv List.not_mem_nil
  · unfold readTag at h
    split at h
    · cases h
    · cases h
    · split at h
      · cases h
      · cases h
      · rename_i ha
        obtain rfl := Except.ok.inj h
        obtain ⟨h', hread, hmem⟩ := mem_of_tagAttr ha
        intro v hv
        obtain ⟨w, hw, hname, hcopy⟩ := hmem v hv
        refine ⟨(name_of_copy hcopy).trans hname, (origin_of_copy hcopy).trans ?_⟩
        rcases hread with rfl | ⟨ret, hread⟩
        · exact absurd hw List.not_mem_nil
        · exact origin_of_tagsread hread (fun _ hu => absurd hu List.not_mem_nil) w hw

theorem valuesOf_of_not_isMetadata (hn : isMetadata name = false) : valuesOf env s job name =
    match tagsNamed env s job name with
    | .ok tags => tags ++ env.plugins.attr job name
    | .error _ => [] := by
  simp only [valuesOf, getAttrs, List.filter_cons, hn, Bool.not_false, if_true, Bool.false_eq_true,
    if_false, List.filter_nil, getJobMetadata, List.mapM_nil, List.mapM_cons, Exec.ok_bind, pure,
    Except.pure, List.append_nil]
  cases tagsNamed env s job name with
  | error e => rfl
  | ok tags =>
    simp only [Exec.ok_bind, List.flatten_cons, List.flatten_nil, List.append_nil]
    split_ifs with h
    · exact h.symm
    · rfl

theorem valuesOf_of_isMetadata (hn : isMetadata name = true) : valuesOf env s job name =
    match jobMetadata s.tables.jobs.rows s.tables.users.rows job name with
    | .ok v => [v]
    | .error _ => [] := by
  simp only [valuesOf, getAttrs, List.filter_cons, hn, Bool.not_true, if_true, Bool.false_eq_true,
    if_false, List.filter_nil, getJobMetadata, List.mapM_nil, List.mapM_cons, Exec.ok_bind, pure,
    Except.pure]
  cases jobMetadata s.tables.jobs.rows s.tables.users.rows job name <;> rfl

/-- The values of an attribute have its name. -/
theorem name_of_valuesOf : ∀ v ∈ valuesOf env s job name, v.name = name := by
  by_cases hn : isMetadata name = true
  · rw [valuesOf_of_isMetadata hn]
    split
    · rename_i v hv
      intro w hw
      rw [List.mem_singleton.1 hw]
      unfold jobMetadata at hv
      rw [if_pos hn] at hv
      obtain ⟨info, -, hv⟩ := Exec.bind_eq_ok.1 hv
      rw [← Except.ok.inj hv]
      rfl
    · exact fun v hv => absurd hv List.not_mem_nil
  · rw [valuesOf_of_not_isMetadata (Bool.not_eq_true _ ▸ hn)]
    split
    · rename_i tags ht
      intro v hv
      rcases List.mem_append.1 hv with hv | hv
      · exact (mem_of_tagsNamed ht v hv).1
      · exact env.plugins.name_eq job name v hv
    · exact fun v hv => absurd hv List.not_mem_nil

/-- The values of some attributes are those of each. -/
theorem getAttrs_eq_ok (h : getAttrs env s job names = .ok out) :
    out = (names.filter (!isMetadata ·) ++ names.filter isMetadata).flatMap (valuesOf env s job) := by
  obtain ⟨metadata, hm, h⟩ := Exec.bind_eq_ok.1 h
  obtain ⟨other, ho, h⟩ := Exec.bind_eq_ok.1 h
  have hmeta : metadata.flatMap (fun v => [v]) =
      (names.filter isMetadata).flatMap (valuesOf env s job) := by
    refine Exec.flatMap_of_mapM hm fun name hn v hv => ?_
    rw [valuesOf_of_isMetadata (List.mem_filter.1 hn).2, hv]
  have hother : other.flatMap id =
      (names.filter (!isMetadata ·)).flatMap (valuesOf env s job) := by
    refine Exec.flatMap_of_mapM ho fun name hn vs hv => ?_
    obtain ⟨tags, ht, hv⟩ := Exec.bind_eq_ok.1 hv
    rw [valuesOf_of_not_isMetadata (by simpa using (List.mem_filter.1 hn).2), ht]
    exact (Except.ok.inj hv).symm
  rw [List.flatMap_singleton'] at hmeta
  rw [List.flatMap_id] at hother
  dsimp only at h
  split_ifs at h
  rw [← Except.ok.inj h, List.flatMap_append, hmeta, hother]

/-- The first value of an attribute is the first of its own. -/
theorem find?_flatMap {g : Bytes → List Attrval} (hg : ∀ m, ∀ v ∈ g m, v.name = m)
    (hn : name ∈ names) : (names.flatMap g).find? (·.name = name) = (g name).head? := by
  induction names with
  | nil => cases hn
  | cons m names ih =>
    rw [List.flatMap_cons, List.find?_append]
    by_cases hm : m = name
    · subst hm
      cases hgm : g m with
      | nil =>
        -- whatever has the name would be among its values
        rw [List.find?_nil, Option.none_or, List.head?_nil, List.find?_eq_none]
        intro v hv
        obtain ⟨k, -, hv⟩ := List.mem_flatMap.1 hv
        rw [decide_eq_true_eq, hg k v hv]
        rintro rfl
        rw [hgm] at hv
        cases hv
      | cons v vs =>
        have hv : v.name = m := hg m v (by rw [hgm]; exact List.mem_cons_self)
        have hfind : (v :: vs).find? (·.name = m) = some v :=
          List.find?_cons_of_pos (decide_eq_true hv)
        rw [hfind, Option.some_or, List.head?_cons]
    · have hnone : (g m).find? (·.name = name) = none := by
        rw [List.find?_eq_none]
        intro v hv
        rw [decide_eq_true_eq, hg m v hv]
        exact hm
      rw [hnone, Option.none_or]
      exact ih ((List.mem_cons.1 hn).resolve_left (Ne.symm hm))

theorem find?_getAttrs (h : getAttrs env s job names = .ok out) (hn : name ∈ names) :
    out.find? (·.name = name) = (valuesOf env s job name).head? := by
  rw [getAttrs_eq_ok h]
  refine find?_flatMap (fun m => name_of_valuesOf) (List.mem_append.2 ?_)
  rcases Bool.eq_false_or_eq_true (isMetadata name) with hm | hm
  · exact .inr (List.mem_filter.2 ⟨hn, hm⟩)
  · exact .inl (List.mem_filter.2 ⟨hn, by rw [hm]; rfl⟩)

/-- A value that is found is one of an attribute that is asked for. -/
theorem name_of_getAttrs (h : getAttrs env s job names = .ok out) : ∀ v ∈ out, v.name ∈ names := by
  rw [getAttrs_eq_ok h]
  intro v hv
  obtain ⟨name, hn, hv⟩ := List.mem_flatMap.1 hv
  rw [name_of_valuesOf v hv]
  rcases List.mem_append.1 hn with hn | hn <;> exact (List.mem_filter.1 hn).1

/-- What is found of the metadata that are asked for. -/
theorem exists_metadata_of_getAttrs (h : getAttrs env s job names = .ok out) (hn : name ∈ names)
    (hm : isMetadata name = true) :
    ∃ v ∈ out, jobMetadata s.tables.jobs.rows s.tables.users.rows job name = .ok v := by
  obtain ⟨metadata, hmeta, h⟩ := Exec.bind_eq_ok.1 h
  obtain ⟨other, -, h⟩ := Exec.bind_eq_ok.1 h
  obtain ⟨v, hv, hjv⟩ := (Exec.mem_of_mapM hmeta).1 name (List.mem_filter.2 ⟨hn, hm⟩)
  dsimp only at h
  split_ifs at h
  obtain rfl := Except.ok.inj h
  exact ⟨v, List.mem_append_right _ hv, hjv⟩

theorem origin_of_jobMetadata {jobs : List JobRow} {users : List UserRow} {v : Attrval}
    (h : jobMetadata jobs users job name = .ok v) : v.origin = .system := by
  unfold jobMetadata at h
  by_cases hm : isMetadata name = true
  · rw [if_pos hm] at h
    obtain ⟨info, -, h⟩ := Exec.bind_eq_ok.1 h
    rw [← Except.ok.inj h]
    rfl
  · rw [if_neg hm] at h
    cases h

/-- Attributes with values have at least as many values. -/
theorem length_le_of_getAttrs (h : getAttrs env s job names = .ok out)
    (hv : ∀ name ∈ names, valuesOf env s job name ≠ []) : names.length ≤ out.length := by
  have hperm : (names.filter (!isMetadata ·) ++ names.filter isMetadata).Perm names := by
    have hp := List.filter_append_perm (!isMetadata ·) names
    simpa only [Bool.not_not] using hp
  rw [getAttrs_eq_ok h, List.length_flatMap, ← hperm.length_eq]
  refine List.length_le_sum_of_one_le _ ?_ |>.trans' (by rw [List.length_map])
  intro n hn
  obtain ⟨name, hname, rfl⟩ := List.mem_map.1 hn
  exact List.length_pos_of_ne_nil (hv name (hperm.mem_iff.1 hname))

end Attrs

/-- A primary storage that reads nothing of files, and whose messages are all accepted. -/
def sampleEnv : Env where
  config := sampleConfig
  md5 := id
  plugins := ⟨fun _ _ => [], nofun, nofun⟩
  escape := escapeULM
  unescape := unescapeULM
  answers _ := true

end JobProvenance
