import JobProvenance.Primary.SandboxArchive

/-!
# What the sandbox plugin returns

* `extracts_iff`: of a well-formed archive, all entries are listed, and the contents of
  a file are returned unless its name says that it is one of the output sandbox;
* `keepsContract_iff`: when the plugin returns zero exactly if it returns a list. It
  returns zero also for the attributes it does not know, and for those of which it finds
  nothing;
* `matchFileValues_ok`: what the match of an uploaded file does with the lists. It reads
  one whenever zero is returned.
-/

namespace JobProvenance

/-! ## Well-formed archives -/

section WellFormed

variable (L : Libtar) (stack : Bytes)

/-- An archive in which the contents of all files are there: its entries, with the contents
    of the files. -/
inductive Archive : Bytes → List (TarHeader × Bytes) → Prop
  | nil {rest : Bytes} {n : ℕ} (h : L.thRead rest = (none, n)) : Archive rest []
  | file {rest : Bytes} {th : TarHeader} {n : ℕ} {es : List (TarHeader × Bytes)}
      (h : L.thRead rest = (some th, n)) (hreg : th.isReg = true)
      (hblocks : paddedSize th.size ≤ (rest.drop n).length)
      (hes : Archive ((rest.drop n).drop (paddedSize th.size)) es) :
      Archive rest ((th, (rest.drop n).take th.size) :: es)
  | other {rest : Bytes} {th : TarHeader} {n : ℕ} {es : List (TarHeader × Bytes)}
      (h : L.thRead rest = (some th, n)) (hreg : th.isReg = false)
      (hes : Archive (rest.drop n) es) : Archive rest ((th, []) :: es)

/-- All entries are listed, in their order. -/
def ListsEntries (h : Fhandle) (es : List (TarHeader × Bytes)) : Prop :=
  ∃ b g, sandboxAttr L stack GLITE_JP_ATTR_ISB_FILENAME (.opened h) = .ok (none, some b, g) ∧
    attrList b = .ok (es.map nameValue)

/-- The contents of a file are returned. -/
def Extracts (h : Fhandle) (f : Bytes) (e : TarHeader × Bytes) : Prop :=
  ∃ b g, sandboxAttr L stack (contentAttr f) (.opened h) = .ok (none, some b, g) ∧
    attrList b = .ok [sandboxValue (contentAttr f) e.2 e.1]

/-- The last entry of a name is a regular file, without zeros in its contents. -/
def IsFile (es : List (TarHeader × Bytes)) (f : Bytes) (e : TarHeader × Bytes) : Prop :=
  (es.filter fun e => named f e.1).getLast? = some e ∧ e.1.isReg = true ∧ 0 ∉ e.2

variable {L stack} {rest : Bytes} {es : List (TarHeader × Bytes)}

/-- An entry, as it is found in a file of some length. -/
def Found (len : ℕ) (w e : TarHeader × Bytes) : Prop :=
  w.1 = e.1 ∧ w.2.length + T_BLOCKSIZE ≤ len ∧
    (e.1.isReg = true → paddedSize w.1.size ≤ w.2.length ∧ e.2 = w.2.take w.1.size)

theorem Found.mono {len len' : ℕ} {w e : TarHeader × Bytes} (hle : len ≤ len') (h : Found len w e) :
    Found len' w e := ⟨h.1, h.2.1.trans hle, h.2.2⟩

/-- All entries of a well-formed archive are visited. -/
theorem walk_of_archive (reads : TarHeader → Bool) (ha : Archive L rest es)
    (hreads : ∀ e ∈ es, reads e.1 = true → e.1.isReg = true) :
    (walk L reads rest).2 = true ∧ List.Forall₂ (Found rest.length) (walk L reads rest).1 es := by
  induction ha with
  | nil h =>
    rw [walk_none h]
    exact ⟨rfl, .nil⟩
  | @file rest th n es h hreg hblocks _ ih =>
    have hb : behind L reads th (rest.drop n) = some ((rest.drop n).drop (paddedSize th.size)) := by
      rw [behind, L.skipRegfile_of_le th _ hreg hblocks, if_pos hreg]
      exact ite_self _
    obtain ⟨hend, hes⟩ := ih fun e he => hreads e (.tail _ he)
    rw [walk_cons h hb]
    have hlen := length_add_of_thRead h
    refine ⟨hend, .cons ⟨rfl, hlen, fun _ => ⟨hblocks, rfl⟩⟩ (hes.imp fun _ _ => Found.mono ?_)⟩
    rw [List.length_drop]
    omega
  | @other rest th n es h hreg _ ih =>
    have hreads' : reads th = false := by
      by_contra hne
      exact Bool.false_ne_true (hreg ▸ hreads _ (.head _) (Bool.of_not_eq_false hne))
    have hb : behind L reads th (rest.drop n) = some (rest.drop n) := by
      rw [behind, hreads', hreg]
      rfl
    obtain ⟨hend, hes⟩ := ih fun e he => hreads e (.tail _ he)
    rw [walk_cons h hb]
    have hlen := length_add_of_thRead h
    refine ⟨hend, .cons ⟨rfl, hlen, fun hreg' => ?_⟩ (hes.imp fun _ _ => Found.mono (by omega))⟩
    exact absurd hreg' (by rw [hreg]; exact Bool.false_ne_true)

theorem getLast?_of_forall₂ {α β : Type} {R : α → β → Prop} {as : List α} {bs : List β} {b : β}
    (h : List.Forall₂ R as bs) (hb : bs.getLast? = some b) : ∃ a, as.getLast? = some a ∧ R a b := by
  induction h with
  | nil => cases hb
  | @cons a b' as bs hab h ih =>
    rw [List.getLast?_cons] at hb ⊢
    cases hlast : bs.getLast? with
    | none =>
      obtain rfl := List.getLast?_eq_none_iff.1 hlast
      obtain rfl := List.forall₂_nil_right_iff.1 h
      obtain rfl := Option.some.inj hb
      exact ⟨a, rfl, hab⟩
    | some b₁ =>
      rw [hlast] at hb
      obtain ⟨a₁, ha₁, hR⟩ := ih (hlast.trans hb)
      exact ⟨a₁, by rw [ha₁]; rfl, hR⟩

theorem branch_filename : sandboxBranch GLITE_JP_ATTR_ISB_FILENAME = .isbFilename := if_pos rfl

/-- The names of all entries are returned. -/
theorem listsEntries (h : Fhandle) (ha : Archive L h.filedata.bytes es) (hne : es ≠ []) :
    ListsEntries L stack h es := by
  obtain ⟨hend, hes⟩ := walk_of_archive (fun _ => false) ha nofun
  obtain ⟨attrval, g, hlist, hfilled⟩ :=
    listEntries_eq (L := L) (g := .opened h) filled_nil
  have hnames : (walk L (fun _ => false) h.filedata.bytes).1.map nameValue = es.map nameValue := by
    refine List.forall₂_eq_eq_eq ▸ List.forall₂_map_left_iff.2 (List.forall₂_map_right_iff.2 ?_)
    exact hes.imp fun w e hwe => by rw [nameValue, nameValue, hwe.1]
  rw [GlobalData.rest_opened, List.nil_append, hnames] at hfilled
  rw [GlobalData.rest_opened, walkRet, if_pos hend] at hlist
  rcases hfilled.returns with ⟨-, hnil⟩ | ⟨-, b, rfl, hb⟩
  · exact absurd (List.map_eq_nil_iff.1 hnil) hne
  · refine ⟨b, g, ?_, hb⟩
    rw [sandboxAttr, branch_filename]
    exact hlist

/-- The contents of a file are returned. -/
theorem extracts {f : Bytes} {e : TarHeader × Bytes} (h : Fhandle)
    (ha : Archive L h.filedata.bytes es) (htype : ∀ e ∈ es, ∀ e' ∈ es,
      e.1.pathname = e'.1.pathname → e.1.isReg = e'.1.isReg)
    (hfile : IsFile es f e) (hf : (strstr GLITE_JP_OSB_CONTENT_NS f).isSome = false) :
    Extracts L stack h f e := by
  obtain ⟨hlast, hreg, h0⟩ := hfile
  obtain ⟨he, hname⟩ := List.mem_filter.1 (List.mem_of_getLast? hlast)
  have hsame : ∀ e' ∈ es, named f e'.1 = true → e'.1.isReg = true := fun e' he' hname' => by
    rw [htype e' he' e he ((of_decide_eq_true hname').symm.trans (of_decide_eq_true hname)), hreg]
  obtain ⟨hend, hes⟩ := walk_of_archive (named f) ha hsame
  have hhits : List.Forall₂ (Found h.filedata.bytes.length) (hits L f h.filedata.bytes)
      (es.filter fun e => named f e.1) :=
    List.rel_filter (fun w e hwe => by simp only [hwe.1]) hes
  have hlen := h.filedata.length_lt
  have hall : ∀ w ∈ hits L f h.filedata.bytes, Extractable w := fun w hw => by
    obtain ⟨e', he', hwe⟩ := (Exec.mem_of_forall₂ hhits).1 w hw
    obtain ⟨he', hname'⟩ := List.mem_filter.1 he'
    have hreg' := hsame e' he' hname'
    have hpadded := (hwe.2.2 hreg').1
    have hsize := (paddedSize_spec w.1.size).2.1
    have hblock := hwe.2.1
    refine ⟨hwe.1 ▸ hreg', ?_⟩
    simp only [maxSize] at *
    omega
  obtain ⟨attrval, g, hextract, hextracted⟩ := extractFiles_eq (L := L) (g := .opened h)
    stack (contentAttr f) none hall
  obtain ⟨w, hw, hwe⟩ := getLast?_of_forall₂ hhits hlast
  rw [GlobalData.rest_opened, Extracted, hw] at hextracted
  obtain ⟨value, rfl, hvalue⟩ := hextracted
  rw [GlobalData.rest_opened, walkRet, if_pos hend] at hextract
  refine ⟨_, g, (sandboxAttr_contentAttr hf _).trans hextract, ?_⟩
  obtain ⟨hpadded, hdata⟩ := hwe.2.2 hreg
  have hsize := (paddedSize_spec w.1.size).2.1
  rw [hvalue (hsize.trans hpadded) (hdata ▸ h0), ← hdata, hwe.1]
  rfl

/-- Of a well-formed archive, all entries are listed, and the contents of a file are returned
    unless its name says that it is one of the output sandbox. -/
theorem extracts_iff (stack : Bytes) (h : Fhandle) (ha : Archive L h.filedata.bytes es) (hne : es ≠ [])
    (htype : ∀ e ∈ es, ∀ e' ∈ es, e.1.pathname = e'.1.pathname → e.1.isReg = e'.1.isReg) :
    ListsEntries L stack h es ∧ ∀ f e, IsFile es f e →
      (Extracts L stack h f e ↔ (strstr GLITE_JP_OSB_CONTENT_NS f).isSome = false) := by
  refine ⟨listsEntries h ha hne, fun f e hfile => ⟨?_, extracts h ha htype hfile⟩⟩
  rintro ⟨b, g, hattr, -⟩
  by_contra hf
  rw [sandboxAttr, branch_isbContent, if_pos (Bool.of_not_eq_false hf)] at hattr
  cases hattr

end WellFormed

/-! ## The contract -/

section Contract

/-- A call keeps its contract: it returns zero exactly if it returns a list of values that ends
    behind one at least. -/
def KeepsContract (x : Exec SandboxResult) : Prop :=
  ∃ ret attrval g, x = .ok (ret, attrval, g) ∧
    (ret = none ↔ ∃ b as, attrval = some b ∧ attrList b = .ok as ∧ as ≠ [])

variable (L : Libtar) (stack : Bytes)

/-- What the match of an uploaded file reads of the values of an attribute: nothing, if a call
    fails. -/
def readValues (ret : Ret) (oneval : Option (Block (Option Attrval))) : Exec (List Attrval) :=
  if ret = none then Exec.deref oneval >>= attrList else .ok []

/-- What the match of an uploaded file reads of the values of its attributes, by one handle. -/
def matchFileValues : List Bytes → GlobalData → Exec (List Attrval × GlobalData)
  | [], g => .ok ([], g)
  | attr :: attrs, g => do
    let (ret, oneval, g) ← sandboxAttr L stack attr g
    let as ← readValues ret oneval
    let (vals, g) ← matchFileValues attrs g
    return (as ++ vals, g)

/-- What a call does in an archive: whether it returns at all, whether it comes to the end of the
    archive, and whether it finds something. -/
structure Visit where
  runs : Prop
  ends : Prop
  finds : Prop

/-- Looking for a file ends the program at an entry of its name that cannot be extracted, and when
    no name of a file is given; nothing is found of the attributes that are not implemented. -/
def callVisit (attr rest : Bytes) : Visit :=
  match sandboxBranch attr with
  | .isbFilename =>
    ⟨True, (walk L (fun _ => false) rest).2 = true, (walk L (fun _ => false) rest).1 ≠ []⟩
  | .isbContent =>
    match contentFileName attr with
    | .ok f =>
      ⟨∀ e ∈ hits L f rest, Extractable e, (walk L (named f) rest).2 = true, hits L f rest ≠ []⟩
    | .error _ => ⟨False, False, False⟩
  | .osbFilename | .osbContent | .other => ⟨True, True, False⟩

/-- The call returns, and comes to the end of the archive exactly if it finds something. -/
def Answers (attr rest : Bytes) : Prop :=
  (callVisit L attr rest).runs ∧ ((callVisit L attr rest).ends ↔ (callVisit L attr rest).finds)

/-- The call returns, and when it comes to the end of the archive, it finds something. -/
def Survives (attr rest : Bytes) : Prop :=
  (callVisit L attr rest).runs ∧ ((callVisit L attr rest).ends → (callVisit L attr rest).finds)

/-- Each of the calls that follow each other survives. -/
def SurvivesAlong : List Bytes → GlobalData → Prop
  | [], _ => True
  | attr :: attrs, g => Survives L attr g.rest ∧
    ∀ r, sandboxAttr L stack attr g = .ok r → SurvivesAlong attrs r.2.2

variable {L stack} {attr : Bytes} {g : GlobalData}

theorem Extracted.returns {es : List (TarHeader × Bytes)}
    {attrval' : Option (Block (Option Attrval))} (h : Extracted attr none es attrval') :
    ∃ as, Returns attrval' as ∧ (as ≠ [] ↔ es ≠ []) := by
  rw [Extracted] at h
  cases hlast : es.getLast? with
  | none =>
    rw [hlast] at h
    obtain rfl := List.getLast?_eq_none_iff.1 hlast
    exact ⟨[], .inl ⟨h, rfl⟩, iff_of_false (not_not_intro rfl) (not_not_intro rfl)⟩
  | some e =>
    rw [hlast] at h
    obtain ⟨value, rfl, -⟩ := h
    refine ⟨[_], .inr ⟨List.cons_ne_nil _ _, _, rfl, rfl⟩, iff_of_true (List.cons_ne_nil _ _) ?_⟩
    rintro rfl
    cases hlast

theorem walkRet_eq_none {reads : TarHeader → Bool} {rest : Bytes} :
    walkRet L reads rest = none ↔ (walk L reads rest).2 = true := by
  rw [walkRet]
  split_ifs with h
  · exact iff_of_true rfl h
  · exact iff_of_false not_false h

/-- A call that returns. -/
theorem sandboxAttr_of_runs (stack : Bytes) (h : (callVisit L attr g.rest).runs) :
    ∃ ret attrval g' as, sandboxAttr L stack attr g = .ok (ret, attrval, g') ∧
      Returns attrval as ∧ (ret = none ↔ (callVisit L attr g.rest).ends) ∧
      (as ≠ [] ↔ (callVisit L attr g.rest).finds) := by
  rw [sandboxAttr]
  rw [callVisit] at h ⊢
  cases hbranch : sandboxBranch attr with
  | isbFilename =>
    obtain ⟨attrval, g', hlist, hfilled⟩ :=
      listEntries_eq (L := L) (g := g) filled_nil
    rw [List.nil_append] at hfilled
    exact ⟨_, attrval, g', _, hlist, hfilled.returns, walkRet_eq_none, List.map_eq_nil_iff.not⟩
  | isbContent =>
    rw [hbranch] at h
    cases hf : contentFileName attr with
    | ok f =>
      simp only [hf] at h ⊢
      obtain ⟨attrval, g', hextract, hextracted⟩ :=
        extractFiles_eq (L := L) stack attr none h
      obtain ⟨as, has, hne⟩ := hextracted.returns
      exact ⟨_, attrval, g', as, hextract, has, walkRet_eq_none, hne⟩
    | error e =>
      simp only [hf] at h
  | osbFilename => exact ⟨_, _, _, [], rfl, .inl ⟨rfl, rfl⟩, by simp, by simp⟩
  | osbContent => exact ⟨_, _, _, [], rfl, .inl ⟨rfl, rfl⟩, by simp, by simp⟩
  | other => exact ⟨_, _, _, [], rfl, .inl ⟨rfl, rfl⟩, by simp, by simp⟩

theorem sandboxAttr_of_not_runs (h : ¬(callVisit L attr g.rest).runs) :
    sandboxAttr L stack attr g = .error .fault := by
  rw [sandboxAttr]
  rw [callVisit] at h
  cases hbranch : sandboxBranch attr with
  | isbContent =>
    rw [hbranch] at h
    cases hf : contentFileName attr with
    | ok f =>
      simp only [hf, not_forall] at h ⊢
      obtain ⟨e, he, hbad⟩ := h
      exact extractFiles_fault he hbad
    | error e =>
      rw [contentFileName] at hf
      split_ifs at hf
      obtain rfl := Except.error.inj hf
      rfl
  | isbFilename | osbFilename | osbContent | other =>
    rw [hbranch] at h
    exact absurd trivial h

theorem keepsContract_sandboxAttr_iff :
    KeepsContract (sandboxAttr L stack attr g) ↔ Answers L attr g.rest := by
  by_cases hruns : (callVisit L attr g.rest).runs
  · obtain ⟨ret, attrval, g', as, h, hreturns, hends, hfinds⟩ :=
      sandboxAttr_of_runs stack hruns
    have hlist : (∃ b as, attrval = some b ∧ attrList b = .ok as ∧ as ≠ []) ↔ as ≠ [] := by
      rcases hreturns with ⟨rfl, rfl⟩ | ⟨hne, b, rfl, hb⟩
      · exact iff_of_false (fun ⟨_, _, hnone, _⟩ => Option.some_ne_none _ hnone.symm)
          (not_not_intro rfl)
      · exact iff_of_true ⟨b, as, rfl, hb, hne⟩ hne
    rw [Answers, and_iff_right hruns, ← hends, ← hfinds, ← hlist, KeepsContract]
    constructor
    · rintro ⟨ret', attrval', g'', h', hiff⟩
      cases h.symm.trans h'
      exact hiff
    · exact fun hiff => ⟨ret, attrval, g', h, hiff⟩
  · refine iff_of_false ?_ fun h => hruns h.1
    rintro ⟨ret, attrval, g', h, -⟩
    cases (sandboxAttr_of_not_runs hruns).symm.trans h

theorem readValues_iff {ret : Ret} {attrval : Option (Block (Option Attrval))} {as : List Attrval}
    (h : Returns attrval as) :
    (∃ as', readValues ret attrval = .ok as') ↔ (ret = none → as ≠ []) := by
  rw [readValues]
  split_ifs with hret
  · rw [imp_iff_right hret]
    rcases h with ⟨rfl, rfl⟩ | ⟨hne, b, rfl, hb⟩
    · exact iff_of_false (fun ⟨_, h⟩ => by cases h) (not_not_intro rfl)
    · exact iff_of_true ⟨as, hb⟩ hne
  · exact iff_of_true ⟨[], rfl⟩ fun h => absurd h hret

theorem matchFileValues_ok_iff (attrs : List Bytes) (g : GlobalData) :
    (∃ r, matchFileValues L stack attrs g = .ok r) ↔ SurvivesAlong L stack attrs g := by
  induction attrs generalizing g with
  | nil => exact iff_of_true ⟨_, rfl⟩ trivial
  | cons attr attrs ih =>
    rw [matchFileValues, SurvivesAlong, Survives]
    by_cases hruns : (callVisit L attr g.rest).runs
    · obtain ⟨ret, attrval, g', as, h, hreturns, hends, hfinds⟩ :=
        sandboxAttr_of_runs stack hruns
      have hnext : (∀ r, sandboxAttr L stack attr g = .ok r → SurvivesAlong L stack attrs r.2.2) ↔
          ∃ r, matchFileValues L stack attrs g' = .ok r := by
        rw [ih g']
        refine ⟨fun hr => hr _ h, fun hr r hr' => ?_⟩
        cases h.symm.trans hr'
        exact hr
      rw [and_iff_right hruns, ← hends, ← hfinds, ← readValues_iff hreturns, hnext, h, Exec.ok_bind]
      constructor
      · rintro ⟨r, hr⟩
        obtain ⟨as', has', hr⟩ := Exec.bind_eq_ok.1 hr
        obtain ⟨r', hr', -⟩ := Exec.bind_eq_ok.1 hr
        exact ⟨⟨as', has'⟩, r', hr'⟩
      · rintro ⟨⟨as', has'⟩, r', hr'⟩
        exact ⟨_, Exec.bind_eq_ok.2 ⟨as', has', Exec.bind_eq_ok.2 ⟨r', hr', rfl⟩⟩⟩
    · rw [sandboxAttr_of_not_runs hruns]
      exact iff_of_false (fun ⟨_, h⟩ => by cases h) fun h => hruns h.1.1

/-- The plugin returns zero exactly if it returns a list, when a call comes to the end of the
    archive exactly if it finds something; and the match of an uploaded file reads the lists,
    as long as no call comes to the end without finding something. -/
theorem keepsContract_iff (L : Libtar) (stack : Bytes) :
    (∀ attr g, KeepsContract (sandboxAttr L stack attr g) ↔ Answers L attr g.rest) ∧
      ∀ attrs g, (∃ r, matchFileValues L stack attrs g = .ok r) ↔ SurvivesAlong L stack attrs g :=
  ⟨fun _ _ => keepsContract_sandboxAttr_iff, matchFileValues_ok_iff⟩

end Contract

/-! ## Sample archives -/

/-- A field of a header. -/
def headerField (n : ℕ) (s : Bytes) : Bytes := s ++ List.replicate (n - s.length) 0

theorem length_headerField {n : ℕ} {s : Bytes} (h : s.length ≤ n) : (headerField n s).length = n := by
  rw [headerField, List.length_append, List.length_replicate]
  omega

/-- The header of a regular file of two bytes; `sum` is the sum of the bytes. -/
def sampleHeader (name sum : Bytes) : Bytes :=
  headerField 100 name ++ headerField 8 (ascii "0000644") ++ headerField 8 (ascii "0000000") ++
    headerField 8 (ascii "0000000") ++ headerField 12 (ascii "00000000002") ++
    headerField 12 (ascii "11600000000") ++ headerField 8 sum ++ headerField 356 (ascii "0")

/-- The contents of an archive with one file. -/
def sampleArchive (name sum : Bytes) : Bytes :=
  sampleHeader name sum ++ (headerField T_BLOCKSIZE (ascii "ok") ++ List.replicate (2 * T_BLOCKSIZE) 0)

/-- What the header of the file says. -/
def sampleTh (name : Bytes) : TarHeader where
  pathname := name
  mtime := 1308622848
  size := 2
  isReg := true

/-- The two names that are used, with their sums. -/
def IsSample (name sum : Bytes) : Prop :=
  name = ascii "out.txt" ∧ sum = ascii "006076" ∨
    name = GLITE_JP_OSB_CONTENT_NS ∧ sum = ascii "014624"

section Sample

variable {name sum : Bytes}

theorem sampleHeader_spec (h : IsSample name sum) : (sampleHeader name sum).length = T_BLOCKSIZE ∧
    (sampleHeader name sum).head? ≠ some 0 ∧
    headerSum (sampleHeader name sum) = octal (((sampleHeader name sum).drop 148).take 8) ∧
    headerOf (sampleHeader name sum) = sampleTh name := by
  rcases h with ⟨rfl, rfl⟩ | ⟨rfl, rfl⟩
  · decide +kernel
  · decide +kernel

theorem thRead_sampleHeader (h : IsSample name sum) (rest : Bytes) :
    ustar.thRead (sampleHeader name sum ++ rest) = (some (sampleTh name), T_BLOCKSIZE) := by
  obtain ⟨hlen, hzero, hsum, hth⟩ := sampleHeader_spec h
  have hlt : ¬(sampleHeader name sum ++ rest).length < T_BLOCKSIZE := by
    rw [List.length_append]
    omega
  simp only [ustar, if_neg hlt, List.take_left' hlen, if_neg hzero, if_pos hsum, hth]

theorem thRead_zeros : ustar.thRead (List.replicate (2 * T_BLOCKSIZE) 0) = (none, 2 * T_BLOCKSIZE) := by
  have hlt : ¬(List.replicate (2 * T_BLOCKSIZE) (0 : UInt8)).length < T_BLOCKSIZE := by
    rw [List.length_replicate]
    decide
  simp only [ustar, if_neg hlt]
  exact if_pos rfl

/-- The archive has one file. -/
theorem archive_sample (h : IsSample name sum) :
    Archive ustar (sampleArchive name sum) [(sampleTh name, ascii "ok")] := by
  have hdrop : (sampleArchive name sum).drop T_BLOCKSIZE =
      headerField T_BLOCKSIZE (ascii "ok") ++ List.replicate (2 * T_BLOCKSIZE) 0 :=
    List.drop_left' (sampleHeader_spec h).1
  have hblock : (headerField T_BLOCKSIZE (ascii "ok")).length = paddedSize 2 :=
    length_headerField (by decide)
  have hlast : ((sampleArchive name sum).drop T_BLOCKSIZE).drop (paddedSize 2) =
      List.replicate (2 * T_BLOCKSIZE) 0 := by
    rw [hdrop, List.drop_left' hblock]
  have hdata : ((sampleArchive name sum).drop T_BLOCKSIZE).take 2 = ascii "ok" := by
    rw [hdrop]
    rfl
  rw [← hdata]
  refine .file (thRead_sampleHeader h _) rfl ?_ (.nil (n := 2 * T_BLOCKSIZE) ?_)
  · rw [hdrop, List.length_append, hblock]
    exact Nat.le_add_right _ _
  · rw [← thRead_zeros, ← hlast]
    rfl

theorem length_sampleArchive (h : IsSample name sum) : (sampleArchive name sum).length < 2 ^ 31 := by
  have hblock : (headerField T_BLOCKSIZE (ascii "ok")).length = T_BLOCKSIZE :=
    length_headerField (by decide)
  rw [sampleArchive, List.length_append, List.length_append, (sampleHeader_spec h).1, hblock,
    List.length_replicate]
  decide

/-- The file of an archive. -/
def sampleSandbox (h : IsSample name sum) : Fhandle where
  filename := ascii "/jp/sandbox"
  filemode := O_RDONLY
  filedata := ⟨sampleArchive name sum, length_sampleArchive h⟩
  modified := false

/-- One entry has no other type than itself. -/
theorem sameType_sample : ∀ e ∈ [(sampleTh name, ascii "ok")], ∀ e' ∈ [(sampleTh name, ascii "ok")],
    e.1.pathname = e'.1.pathname → e.1.isReg = e'.1.isReg := by
  intro e he e' he' _
  rw [List.mem_singleton.1 he, List.mem_singleton.1 he']

theorem isFile_sample : IsFile [(sampleTh name, ascii "ok")] name (sampleTh name, ascii "ok") := by
  have hname : named name (sampleTh name) = true := decide_eq_true rfl
  have h0 : 0 ∉ ascii "ok" := by decide
  refine ⟨?_, rfl, h0⟩
  rw [List.filter_cons, if_pos hname]
  rfl

end Sample

/-- An archive of a file `out.txt`. -/
theorem extracts_iff_sample :
    ListsEntries ustar [] (sampleSandbox (.inl ⟨rfl, rfl⟩)) [(sampleTh (ascii "out.txt"), ascii "ok")] ∧
      Extracts ustar [] (sampleSandbox (.inl ⟨rfl, rfl⟩)) (ascii "out.txt")
        (sampleTh (ascii "out.txt"), ascii "ok") := by
  obtain ⟨hlists, hextracts⟩ := extracts_iff (L := ustar) []
    (sampleSandbox (.inl ⟨rfl, rfl⟩)) (archive_sample (.inl ⟨rfl, rfl⟩)) (List.cons_ne_nil _ _)
    sameType_sample
  exact ⟨hlists, (hextracts _ _ isFile_sample).2 (by decide)⟩

/-- A file with the name of the contents of the output sandbox, which is not extracted. -/
theorem not_extracts_osb :
    Archive ustar (sampleSandbox (.inr ⟨rfl, rfl⟩)).filedata.bytes
        [(sampleTh GLITE_JP_OSB_CONTENT_NS, ascii "ok")] ∧
      IsFile [(sampleTh GLITE_JP_OSB_CONTENT_NS, ascii "ok")] GLITE_JP_OSB_CONTENT_NS
        (sampleTh GLITE_JP_OSB_CONTENT_NS, ascii "ok") ∧
      ¬Extracts ustar [] (sampleSandbox (.inr ⟨rfl, rfl⟩)) GLITE_JP_OSB_CONTENT_NS
        (sampleTh GLITE_JP_OSB_CONTENT_NS, ascii "ok") := by
  refine ⟨archive_sample (.inr ⟨rfl, rfl⟩), isFile_sample, ?_⟩
  rintro ⟨b, g, h, -⟩
  have hbranch : sandboxBranch (contentAttr GLITE_JP_OSB_CONTENT_NS) = .osbContent := by
    rw [branch_isbContent]
    exact if_pos (by decide)
  rw [sandboxAttr, hbranch] at h
  cases h

/-- The attribute with the names of the output sandbox, which is not implemented. -/
theorem not_keepsContract_osb :
    ¬KeepsContract (sandboxAttr ustar [] GLITE_JP_ATTR_OSB_FILENAME
        (.opened (sampleSandbox (.inl ⟨rfl, rfl⟩)))) ∧
      matchFileValues ustar [] [GLITE_JP_ATTR_OSB_FILENAME]
        (.opened (sampleSandbox (.inl ⟨rfl, rfl⟩))) = .error .fault := by
  have hbranch : sandboxBranch GLITE_JP_ATTR_OSB_FILENAME = .osbFilename := by decide
  constructor
  · rintro ⟨ret, attrval, g, h, hiff⟩
    rw [sandboxAttr, hbranch] at h
    cases h
    obtain ⟨b, as, hnone, -⟩ := hiff.1 rfl
    cases hnone
  · rw [matchFileValues, sandboxAttr, hbranch]
    rfl

end JobProvenance
