import JobProvenance.Lib.DigitOrder
import JobProvenance.Lib.Terminated
import JobProvenance.Primary.Plugins

/-!
# Known namespaces

The plugins of a namespace are found in a table that is built from the namespaces the
plugins declare: an array of records, each with the plugins of a namespace and, for each of
these, what is cached of the file it has open. The arrays of a record grow for every plugin,
and the table for every namespace.

* `Scanned`: what the table says of the declarations it was built from, which every further
  one preserves (`Scanned.scanNamespace`);
* `scanned_scanNamespaces`: the table of all plugins, in which a plugin stands as often as
  it declares the namespace, as in `pluginsOf`.
-/

namespace JobProvenance

/-! ## The table -/

/-- A namespace with its plugins, and what is cached for each of them. -/
structure NamespaceRecord (P F H : Type) where
  nsName : Bytes
  plugins : Block (Option P)
  nplugins : ℕ
  openedClasses : Block (Option Bytes)
  openedFiles : Block (Option Bytes)
  pluginHandles : Block (Option H)
  fileHandles : Block (Option F)

/-- The table: the null pointer as long as no namespace is known. -/
abbrev KnownTable (P F H : Type) := Option (Block (Option (NamespaceRecord P F H)))

section Scan

variable {P F H : Type} (namespaces : P → Strings)

/-- Looks for a namespace from an index on: the index where the search ends, and the record
    that is there, if it is not the terminator. -/
def findNamespace (nsName : Bytes) : Block (Option (NamespaceRecord P F H)) → ℕ →
    Exec (ℕ × Option (NamespaceRecord P F H))
  | some (some r) :: known, k =>
    if strcmp nsName r.nsName = .eq then .ok (k, some r) else findNamespace nsName known (k + 1)
  | some none :: _, k => .ok (k, none)
  | _, _ => .error .fault

/-- Looks for a namespace in the table. -/
def findKnown (nsName : Bytes) : KnownTable P F H →
    Exec (ℕ × Option (NamespaceRecord P F H))
  | none => .ok (0, none)
  | some known => findNamespace nsName known 0

/-- Makes room in a cache for `n` plugins, the last of which has nothing open. -/
def growCache {α : Type} (cache : Block (Option α)) (n : ℕ) : Exec (Block (Option α)) :=
  (Block.realloc (some cache) (n + 1)).write (n - 1) none

/-- Adds a plugin to the record of a namespace. -/
def addPlugin (pd : P) (nsName : Bytes) (r : NamespaceRecord P F H) :
    Exec (NamespaceRecord P F H) := do
  let plugins ← (Block.realloc (some r.plugins) (r.nplugins + 2)).write r.nplugins (some pd)
  let nplugins := r.nplugins + 1
  let plugins ← plugins.write nplugins none
  let openedClasses ← growCache r.openedClasses nplugins
  let openedFiles ← growCache r.openedFiles nplugins
  let pluginHandles ← growCache r.pluginHandles nplugins
  let fileHandles ← growCache r.fileHandles nplugins
  return { nsName, plugins, nplugins, openedClasses, openedFiles, pluginHandles, fileHandles }

/-- The record of a new namespace with its first plugin. -/
def newNamespace (pd : P) (nsName : Bytes) : Exec (NamespaceRecord P F H) := do
  let plugins ← (Block.malloc 2).write 0 (some pd)
  let plugins ← plugins.write 1 none
  return { nsName, plugins, nplugins := 1, openedClasses := [some none], openedFiles := [some none],
           pluginHandles := [some none], fileHandles := [some none] }

/-- Enters a declaration into the table. -/
def scanNamespace (pd : P) (known : KnownTable P F H) (nsName : Bytes) :
    Exec (KnownTable P F H) := do
  let (k, found) ← findKnown nsName known
  match found with
  | some r =>
    let known ← Exec.deref known
    return some (← known.write k (some (← addPlugin pd nsName r)))
  | none =>
    let grown ← (Block.realloc known (k + 2)).write k (some (← newNamespace pd nsName))
    return some (← grown.write (k + 1) none)

/-- Enters the declarations of a plugin, if it has a list of them. -/
def scanPlugin (known : KnownTable P F H) (pd : P) : Exec (KnownTable P F H) := do
  (← entriesOf (namespaces pd)).foldlM (scanNamespace pd) known

/-- Enters the declarations of all plugins. -/
def scanNamespaces (plugins : Option (Block (Option P))) (known : KnownTable P F H) :
    Exec (KnownTable P F H) := do
  (← entriesOf plugins).foldlM (scanPlugin namespaces) known

end Scan

/-! ## What the table says -/

section Records

variable {P F H : Type}

/-- A cache has a slot for each of `n` plugins, and nothing is open in them. -/
def NothingOpen {α : Type} (cache : Block (Option α)) (n : ℕ) : Prop :=
  cache.Holds (List.replicate n none)

/-- The record of a namespace has some plugins, none of which has a file open. -/
structure NamespaceRecord.Has (r : NamespaceRecord P F H) (ps : List P) : Prop where
  plugins : r.plugins.Terminated ps
  nplugins : r.nplugins = ps.length
  openedClasses : NothingOpen r.openedClasses ps.length
  openedFiles : NothingOpen r.openedFiles ps.length
  pluginHandles : NothingOpen r.pluginHandles ps.length
  fileHandles : NothingOpen r.fileHandles ps.length

/-- The plugins that declare a namespace, each once for every time it does. -/
def declaring (decls : List (P × Bytes)) (nsName : Bytes) : List P :=
  (decls.filter (·.2 = nsName)).map Prod.fst

/-- The table was built from some declarations: it has every namespace that is declared
    once, with the plugins that declare it. -/
structure Scanned (decls : List (P × Bytes)) (known : KnownTable P F H)
    (rs : List (NamespaceRecord P F H)) : Prop where
  lists : ListAt known rs
  null : decls = [] → known = none
  nodup : (rs.map NamespaceRecord.nsName).Nodup
  names : ∀ nsName, nsName ∈ rs.map NamespaceRecord.nsName ↔ nsName ∈ decls.map Prod.snd
  records : ∀ r ∈ rs, r.Has (declaring decls r.nsName)

variable {decls : List (P × Bytes)} {known : KnownTable P F H} {rs : List (NamespaceRecord P F H)}
  {r : NamespaceRecord P F H} {pd : P} {ps : List P} {nsName : Bytes}

/-- The search ends at the first record of the namespace, or at the terminator. -/
theorem findNamespace_eq {known : Block (Option (NamespaceRecord P F H))}
    (h : known.Terminated rs) (nsName : Bytes) (k : ℕ) :
    (∃ pre r post, rs = pre ++ r :: post ∧ r.nsName = nsName ∧
      findNamespace nsName known k = .ok (k + pre.length, some r)) ∨
    (∀ r ∈ rs, r.nsName ≠ nsName) ∧ findNamespace nsName known k = .ok (k + rs.length, none) := by
  obtain ⟨rest, rfl⟩ := Block.terminated_iff.1 h
  clear h
  induction rs generalizing k with
  | nil => exact .inr ⟨List.forall_mem_nil _, rfl⟩
  | cons r rs ih =>
    rw [List.map_cons, List.cons_append, Function.comp_apply, findNamespace]
    by_cases hr : strcmp nsName r.nsName = .eq
    · exact .inl ⟨[], r, rs, rfl, (strcmp_eq_iff.1 hr).symm, if_pos hr⟩
    · rw [if_neg hr]
      rcases ih (k + 1) with ⟨pre, r', post, rfl, hname, hfind⟩ | ⟨hno, hfind⟩
      · refine .inl ⟨r :: pre, r', post, rfl, hname, hfind.trans ?_⟩
        rw [List.length_cons, Nat.add_right_comm, Nat.add_assoc]
      · refine .inr ⟨List.forall_mem_cons.2 ⟨fun heq => ?_, hno⟩, hfind.trans ?_⟩
        · exact hr (strcmp_eq_iff.2 heq.symm)
        · rw [List.length_cons, Nat.add_right_comm, Nat.add_assoc]

theorem NothingOpen.grow {α : Type} {cache : Block (Option α)} {n : ℕ} (h : NothingOpen cache n) :
    ∃ cache', growCache cache (n + 1) = .ok cache' ∧ NothingOpen cache' (n + 1) := by
  have hgrown : (Block.realloc (some cache) (n + 1 + 1)).Holds (List.replicate n none) :=
    Block.Holds.realloc h (by rw [List.length_replicate]; omega)
  have hlen := Block.length_realloc (some cache) (n + 1 + 1)
  obtain ⟨cache', hw, hholds, -⟩ := hgrown.write (by rw [List.length_replicate, hlen]; omega) none
  rw [List.length_replicate] at hw
  rw [← List.replicate_succ'] at hholds
  exact ⟨cache', hw, hholds⟩

/-- A plugin is added behind those of a record. -/
theorem NamespaceRecord.Has.addPlugin (h : r.Has ps) (pd : P) (nsName : Bytes) :
    ∃ r', JobProvenance.addPlugin pd nsName r = .ok r' ∧ r'.nsName = nsName ∧
      r'.Has (ps ++ [pd]) := by
  have hgrown : (Block.realloc (some r.plugins) (ps.length + 2)).Holds (ps.map some) :=
    (Block.Holds.of_append h.plugins).realloc (by rw [List.length_map]; omega)
  have hlen := Block.length_realloc (some r.plugins) (ps.length + 2)
  obtain ⟨plugins, hw, hholds, hlen'⟩ := hgrown.write
    (by rw [List.length_map, hlen]; omega) (some pd)
  rw [List.length_map] at hw
  have hholds' : plugins.Holds ((ps ++ [pd]).map some) := by rwa [List.map_append]
  obtain ⟨plugins', hw', hterm, -⟩ := hholds'.terminate (by
    rw [hlen', hlen, List.length_append, List.length_singleton]
    omega)
  obtain ⟨classes, hclasses, hclasses'⟩ := h.openedClasses.grow
  obtain ⟨files, hfiles, hfiles'⟩ := h.openedFiles.grow
  obtain ⟨handles, hhandles, hhandles'⟩ := h.pluginHandles.grow
  obtain ⟨fileHandles, hfileHandles, hfileHandles'⟩ := h.fileHandles.grow
  rw [List.length_append, List.length_singleton] at hw'
  refine ⟨⟨nsName, plugins', ps.length + 1, classes, files, handles, fileHandles⟩, ?_, rfl, ?_⟩
  · rw [JobProvenance.addPlugin, h.nplugins, hw, Exec.ok_bind]
    dsimp only
    rw [hw', Exec.ok_bind, hclasses, Exec.ok_bind, hfiles, Exec.ok_bind, hhandles, Exec.ok_bind,
      hfileHandles]
    rfl
  · have hlength : (ps ++ [pd]).length = ps.length + 1 := List.length_append
    exact ⟨hterm, hlength.symm, hlength ▸ hclasses', hlength ▸ hfiles', hlength ▸ hhandles',
      hlength ▸ hfileHandles'⟩

/-- A new record has its first plugin. -/
theorem exists_newNamespace (pd : P) (nsName : Bytes) :
    ∃ r : NamespaceRecord P F H, newNamespace pd nsName = .ok r ∧ r.nsName = nsName ∧
      r.Has [pd] :=
  ⟨_, rfl, rfl, ⟨[], rfl⟩, rfl, ⟨[], rfl⟩, ⟨[], rfl⟩, ⟨[], rfl⟩, ⟨[], rfl⟩⟩

theorem declaring_append (pd : P) (nsName nsName' : Bytes) :
    declaring (decls ++ [(pd, nsName)]) nsName' =
      declaring decls nsName' ++ if nsName = nsName' then [pd] else [] := by
  unfold declaring
  rw [List.filter_append, List.map_append]
  congr 1
  rw [List.filter_cons]
  split_ifs with h h' h'
  · rfl
  · exact absurd (of_decide_eq_true h) h'
  · exact absurd (decide_eq_true h') h
  · rfl

/-- A declaration does not change what is said of other namespaces. -/
theorem NamespaceRecord.Has.of_ne (h : r.Has (declaring decls r.nsName)) (hne : r.nsName ≠ nsName) :
    r.Has (declaring (decls ++ [(pd, nsName)]) r.nsName) := by
  rwa [declaring_append, if_neg hne.symm, List.append_nil]

/-- The search in the table. -/
theorem Scanned.search (h : Scanned decls known rs) (nsName : Bytes) :
    (∃ b pre r post, known = some b ∧ rs = pre ++ r :: post ∧ r.nsName = nsName ∧
      findKnown nsName known = .ok (pre.length, some r)) ∨
    (∀ r ∈ rs, r.nsName ≠ nsName) ∧ findKnown nsName known = .ok (rs.length, none) := by
  have hlists := h.lists
  cases known with
  | none =>
    obtain rfl : rs = [] := hlists
    exact .inr ⟨List.forall_mem_nil _, rfl⟩
  | some b =>
    rcases findNamespace_eq hlists nsName 0 with ⟨pre, r, post, hrs, hname, hfind⟩ | ⟨hno, hfind⟩
    · rw [Nat.zero_add] at hfind
      exact .inl ⟨b, pre, r, post, rfl, hrs, hname, hfind⟩
    · rw [Nat.zero_add] at hfind
      exact .inr ⟨hno, hfind⟩

/-- The records of other namespaces are those in front of and behind one. -/
theorem Scanned.ne_of_mem {pre post : List (NamespaceRecord P F H)}
    (h : Scanned decls known (pre ++ r :: post)) :
    (∀ r' ∈ pre, r'.nsName ≠ r.nsName) ∧ ∀ r' ∈ post, r'.nsName ≠ r.nsName := by
  have hnodup := h.nodup
  rw [List.map_append, List.map_cons, List.nodup_middle, List.nodup_cons, List.mem_append,
    not_or] at hnodup
  exact ⟨fun r' hr' heq => hnodup.1.1 (heq ▸ List.mem_map_of_mem hr'),
    fun r' hr' heq => hnodup.1.2 (heq ▸ List.mem_map_of_mem hr')⟩

/-- A declaration of a namespace that is known. -/
theorem Scanned.again {pre post : List (NamespaceRecord P F H)} {r' : NamespaceRecord P F H}
    {known' : KnownTable P F H} (h : Scanned decls known (pre ++ r :: post))
    (hname : r'.nsName = r.nsName) (hr' : r'.Has (declaring decls r.nsName ++ [pd]))
    (hlists : ListAt known' (pre ++ r' :: post)) :
    Scanned (decls ++ [(pd, r.nsName)]) known' (pre ++ r' :: post) := by
  have hnames : (pre ++ r' :: post).map NamespaceRecord.nsName =
      (pre ++ r :: post).map NamespaceRecord.nsName := by
    rw [List.map_append, List.map_append, List.map_cons, List.map_cons, hname]
  obtain ⟨hpre, hpost⟩ := h.ne_of_mem
  refine ⟨hlists, fun hnil => absurd hnil (List.concat_ne_nil _ _), hnames ▸ h.nodup,
    fun nsName => ?_, fun r₀ hr₀ => ?_⟩
  · rw [hnames, h.names, List.map_append, List.mem_append]
    refine (or_iff_left_of_imp fun hmem => ?_).symm
    have hr : r.nsName ∈ (pre ++ r :: post).map NamespaceRecord.nsName :=
      List.mem_map_of_mem (by simp)
    exact List.mem_singleton.1 hmem ▸ (h.names _).1 hr
  · rcases List.mem_append.1 hr₀ with hmem | hmem
    · exact (h.records r₀ (List.mem_append_left _ hmem)).of_ne (hpre r₀ hmem)
    · rcases List.mem_cons.1 hmem with rfl | hmem
      · rw [hname, declaring_append, if_pos rfl]
        exact hr'
      · exact (h.records r₀ (List.mem_append_right _ (List.mem_cons_of_mem _ hmem))).of_ne
          (hpost r₀ hmem)

/-- The first declaration of a namespace. -/
theorem Scanned.new {r' : NamespaceRecord P F H} {known' : KnownTable P F H}
    (h : Scanned decls known rs) (hno : ∀ r ∈ rs, r.nsName ≠ r'.nsName) (hr' : r'.Has [pd])
    (hlists : ListAt known' (rs ++ [r'])) :
    Scanned (decls ++ [(pd, r'.nsName)]) known' (rs ++ [r']) := by
  have hnot : r'.nsName ∉ rs.map NamespaceRecord.nsName := fun hmem => by
    obtain ⟨r, hr, hname⟩ := List.mem_map.1 hmem
    exact hno r hr hname
  refine ⟨hlists, fun hnil => absurd hnil (List.concat_ne_nil _ _), ?_, fun nsName => ?_,
    fun r₀ hr₀ => ?_⟩
  · rw [List.map_append, List.nodup_append]
    refine ⟨h.nodup, List.nodup_singleton _, fun a ha b hb heq => ?_⟩
    exact hnot (List.mem_singleton.1 hb ▸ heq ▸ ha)
  · rw [List.map_append, List.map_append, List.mem_append, List.mem_append, h.names]
    rfl
  · rcases List.mem_append.1 hr₀ with hmem | hmem
    · exact (h.records r₀ hmem).of_ne (hno r₀ hmem)
    · obtain rfl := List.mem_singleton.1 hmem
      have hnone : declaring decls r₀.nsName = [] := by
        unfold declaring
        rw [List.map_eq_nil_iff, List.filter_eq_nil_iff]
        intro d hd heq
        exact hnot ((h.names _).2 (of_decide_eq_true heq ▸ List.mem_map_of_mem hd))
      rw [declaring_append, if_pos rfl, hnone]
      exact hr'

/-- The table with one declaration more. -/
theorem Scanned.scanNamespace (h : Scanned decls known rs) (pd : P) (nsName : Bytes) :
    ∃ known' rs', JobProvenance.scanNamespace pd known nsName = .ok known' ∧
      Scanned (decls ++ [(pd, nsName)]) known' rs' := by
  unfold JobProvenance.scanNamespace
  rcases h.search nsName with ⟨b, pre, r, post, rfl, rfl, rfl, hsearch⟩ | ⟨hno, hsearch⟩
  · obtain ⟨r', hr', hname, hhas⟩ :=
      (h.records r (List.mem_append_right _ List.mem_cons_self)).addPlugin pd r.nsName
    have hterm : b.Holds (pre.map some ++ some r :: (post.map some ++ [none])) := by
      have hb : b.Terminated (pre ++ r :: post) := h.lists
      rwa [Block.Terminated, List.map_append, List.map_cons, List.append_assoc,
        List.cons_append] at hb
    obtain ⟨b', hw, hb'⟩ := hterm.overwrite (some r')
    rw [List.length_map] at hw
    refine ⟨some b', pre ++ r' :: post, ?_, h.again hname hhas ?_⟩
    · rw [hsearch, Exec.ok_bind]
      dsimp only
      rw [Exec.deref, Exec.ok_bind, hr', Exec.ok_bind, hw]
      rfl
    · show b'.Terminated (pre ++ r' :: post)
      rwa [Block.Terminated, List.map_append, List.map_cons, List.append_assoc, List.cons_append]
  · obtain ⟨r', hr', hname, hhas⟩ := @exists_newNamespace P F H pd nsName
    have hgrown := h.lists.holding.realloc (n := rs.length + 2) (by omega)
    have hlen := Block.length_realloc known (rs.length + 2)
    obtain ⟨b, hw, hholds, hlen'⟩ := hgrown.write (by rw [List.length_map, hlen]; omega) (some r')
    rw [List.length_map] at hw
    have hholds' : b.Holds ((rs ++ [r']).map some) := by rwa [List.map_append]
    obtain ⟨b', hw', hterm, -⟩ := hholds'.terminate (by
      rw [hlen', hlen, List.length_append, List.length_singleton]
      omega)
    rw [List.length_append, List.length_singleton] at hw'
    refine ⟨some b', rs ++ [r'], ?_, hname ▸ h.new (hname.symm ▸ hno) hhas hterm⟩
    rw [hsearch, Exec.ok_bind]
    dsimp only
    rw [hr', Exec.ok_bind, hw, Exec.ok_bind, hw']
    rfl

end Records

/-! ## All plugins -/

section Plugins

variable {P F H : Type} {namespaces : P → Strings} {nsList : P → List Bytes}
  {plugins : Option (Block (Option P))} {decls : List (P × Bytes)} {known : KnownTable P F H}
  {rs : List (NamespaceRecord P F H)} {ps : List P} {pd : P}

/-- The declarations of some plugins. -/
def declarations (nsList : P → List Bytes) (ps : List P) : List (P × Bytes) :=
  ps.flatMap fun p => (nsList p).map fun nsName => (p, nsName)

theorem Scanned.scanPlugin (h : Scanned decls known rs) (hns : ListAt (namespaces pd) (nsList pd)) :
    ∃ known' rs', JobProvenance.scanPlugin namespaces known pd = .ok known' ∧
      Scanned (decls ++ declarations nsList [pd]) known' rs' := by
  rw [JobProvenance.scanPlugin, entriesOf_eq_ok.2 hns, Exec.ok_bind, declarations,
    List.flatMap_singleton]
  generalize nsList pd = names
  induction names generalizing decls known rs with
  | nil => exact ⟨known, rs, rfl, by rwa [List.map_nil, List.append_nil]⟩
  | cons nsName names ih =>
    obtain ⟨known₁, rs₁, h₁, hscanned⟩ := h.scanNamespace pd nsName
    obtain ⟨known₂, rs₂, h₂, hscanned⟩ := ih hscanned
    rw [List.append_assoc, List.singleton_append] at hscanned
    exact ⟨known₂, rs₂, by rw [List.foldlM_cons, h₁, Exec.ok_bind, h₂], hscanned⟩

/-- The table of all plugins is built from their declarations. -/
theorem scanned_scanNamespaces (hp : ListAt plugins ps)
    (hns : ∀ p ∈ ps, ListAt (namespaces p) (nsList p)) :
    ∃ (known : KnownTable P F H) (rs : List (NamespaceRecord P F H)),
      scanNamespaces namespaces plugins none = .ok known ∧
      Scanned (declarations nsList ps) known rs := by
  have hrun : ∀ (qs : List P) (decls) (known : KnownTable P F H) (rs), Scanned decls known rs →
      (∀ p ∈ qs, ListAt (namespaces p) (nsList p)) → ∃ known' rs',
        qs.foldlM (JobProvenance.scanPlugin namespaces) known = .ok known' ∧
          Scanned (decls ++ declarations nsList qs) known' rs' := by
    intro qs
    induction qs with
    | nil => exact fun decls known rs h _ => ⟨known, rs, rfl, by rwa [declarations,
        List.flatMap_nil, List.append_nil]⟩
    | cons q qs ih =>
      intro decls known rs h hqs
      rw [List.forall_mem_cons] at hqs
      obtain ⟨known₁, rs₁, h₁, hscanned⟩ := h.scanPlugin hqs.1
      obtain ⟨known₂, rs₂, h₂, hscanned⟩ := ih _ known₁ rs₁ hscanned hqs.2
      rw [List.append_assoc, declarations, declarations, ← List.flatMap_append,
        List.singleton_append] at hscanned
      exact ⟨known₂, rs₂, by rw [List.foldlM_cons, h₁, Exec.ok_bind, h₂], hscanned⟩
  have hempty : Scanned ([] : List (P × Bytes)) (none : KnownTable P F H) [] :=
    ⟨rfl, fun _ => rfl, List.nodup_nil, fun _ => iff_of_false nofun nofun, nofun⟩
  rw [scanNamespaces, entriesOf_eq_ok.2 hp, Exec.ok_bind]
  have hall := hrun ps [] none [] hempty hns
  rwa [List.nil_append] at hall

/-- A plugin declares a namespace as often as it lists it. -/
theorem declaring_declarations (nsList : P → List Bytes) (ps : List P) (nsName : Bytes) :
    declaring (declarations nsList ps) nsName =
      ps.flatMap fun p => ((nsList p).filter (· = nsName)).map fun _ => p := by
  unfold declaring declarations
  rw [List.filter_flatMap, List.map_flatMap]
  refine List.flatMap_congr fun p _ => ?_
  rw [List.filter_map, List.map_map]
  rfl

/-- For the plugins of a storage, these are `pluginsOf`. -/
theorem declaring_eq_pluginsOf {K : Type} (plugins : List (FilePlugin K)) (nsName : Bytes) :
    declaring (declarations FilePlugin.namespaces plugins) nsName = pluginsOf plugins nsName :=
  declaring_declarations _ plugins nsName

/-- The table of all plugins: the null pointer if they declare no namespace, and otherwise a
    terminated array that has every namespace some plugin declares once; a plugin stands in
    its list, in the order of loading, once for each time it declares it, and nothing is
    open in the slots of its caches. -/
structure DispatchTable (nsList : P → List Bytes) (ps : List P) (known : KnownTable P F H)
    (rs : List (NamespaceRecord P F H)) : Prop where
  lists : ListAt known rs
  null : (∀ p ∈ ps, nsList p = []) → known = none
  nodup : (rs.map NamespaceRecord.nsName).Nodup
  names : ∀ nsName, nsName ∈ rs.map NamespaceRecord.nsName ↔ ∃ p ∈ ps, nsName ∈ nsList p
  records : ∀ r ∈ rs,
    r.Has (ps.flatMap fun p => ((nsList p).filter (· = r.nsName)).map fun _ => p)

/-- The namespaces of all plugins are scanned to their table. -/
theorem exists_scanNamespaces (hp : ListAt plugins ps)
    (hns : ∀ p ∈ ps, ListAt (namespaces p) (nsList p)) :
    ∃ (known : KnownTable P F H) (rs : List (NamespaceRecord P F H)),
      scanNamespaces namespaces plugins none = .ok known ∧ DispatchTable nsList ps known rs := by
  obtain ⟨known, rs, hscan, hscanned⟩ := scanned_scanNamespaces hp hns
  refine ⟨known, rs, hscan, hscanned.lists, fun hnil => hscanned.null ?_, hscanned.nodup,
    fun nsName => ?_, fun r hr =>
      declaring_declarations nsList ps r.nsName ▸ hscanned.records r hr⟩
  · rw [declarations, List.flatMap_eq_nil_iff]
    exact fun p hp => List.map_eq_nil_iff.2 (hnil p hp)
  · rw [hscanned.names, declarations, List.map_flatMap, List.mem_flatMap]
    simp

end Plugins

/-- The namespaces of two plugins that share one. -/
def sharedNamespaces (second : Bool) : List Bytes :=
  if second then [ascii "urn:job"] else [ascii "urn:tags", ascii "urn:job"]

/-- The table of these plugins: both stand in the list of the namespace they share. -/
theorem exists_scanNamespaces_sample :
    ∃ (known : KnownTable Bool Unit Unit) (rs : List (NamespaceRecord Bool Unit Unit)),
      scanNamespaces (fun second => some ((sharedNamespaces second).map (some ∘ some) ++ [some none]))
        (some [some (some false), some (some true), some none]) none = .ok known ∧
      DispatchTable sharedNamespaces [false, true] known rs ∧
      (∃ r ∈ rs, r.nsName = ascii "urn:job") ∧
      ∀ r ∈ rs, r.nsName = ascii "urn:job" → r.Has [false, true] := by
  obtain ⟨known, rs, hscan, htable⟩ := @exists_scanNamespaces Bool Unit Unit
    (fun second => some ((sharedNamespaces second).map (some ∘ some) ++ [some none]))
    sharedNamespaces (some [some (some false), some (some true), some none]) [false, true]
    ⟨[], rfl⟩ fun second _ => by cases second <;> exact ⟨[], rfl⟩
  refine ⟨known, rs, hscan, htable, ?_, fun r hr hname => ?_⟩
  · exact List.mem_map.1 ((htable.names (ascii "urn:job")).2 ⟨true, by decide, by decide⟩)
  · have hhas := htable.records r hr
    rw [hname] at hhas
    exact hhas

/-! ## Plugins with one namespace twice -/

/-- The table as if every plugin declared a namespace once, and some namespace was declared. -/
def DispatchesOnce {P F H : Type} (nsList : P → List Bytes) (ps : List P)
    (known : KnownTable P F H) : Prop :=
  ∃ b rs, known = some b ∧ b.Terminated rs ∧ (rs.map NamespaceRecord.nsName).Nodup ∧
    (∀ nsName, nsName ∈ rs.map NamespaceRecord.nsName ↔ ∃ p ∈ ps, nsName ∈ nsList p) ∧
    ∀ r ∈ rs, r.Has (ps.filter fun p => r.nsName ∈ nsList p)

/-- The namespaces of a plugin that lists one of them twice. -/
def twiceDeclared : List Bytes := [ascii "urn:tags", ascii "urn:tags"]

/-- They are an array. -/
def twiceDeclaredArray : Strings := some (twiceDeclared.map (some ∘ some) ++ [some none])

/-- The plugin is put into the table twice; and there is no table for a plugin without namespaces. -/
theorem not_dispatchesOnce :
    (∃ known : KnownTable Unit Unit Unit,
      scanNamespaces (fun _ => twiceDeclaredArray) (some [some (some ()), some none]) none =
        .ok known ∧
      ¬DispatchesOnce (fun _ => twiceDeclared) [()] known) ∧
    ∃ known : KnownTable Unit Unit Unit,
      scanNamespaces (fun _ => none) (some [some (some ()), some none]) none = .ok known ∧
      ¬DispatchesOnce (fun _ => []) [()] known := by
  refine ⟨⟨_, rfl, ?_⟩, none, rfl, by rintro ⟨b, _, ⟨⟩, _⟩⟩
  rintro ⟨b, rs, hb, hterm, -, -, hhas⟩
  obtain rfl := Option.some.inj hb
  -- the record of the namespace has two plugins
  obtain rfl := Except.ok.inj (Block.entries_eq_ok.2 hterm)
  exact absurd (hhas _ List.mem_cons_self).nplugins (by decide)

end JobProvenance
