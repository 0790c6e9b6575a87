import JobProvenance.Lib.Stateful
import JobProvenance.Primary.Plugins

/-!
# The cache of plugin handles

Looking up attributes in the files of a job, the primary storage keeps the file that a
plugin opened last, for the case that the plugin wants it next. It recognizes the file
by its class and its name; a file need not have a name, and then there is nothing to
compare with one that has.

What a plugin answers may depend on what it was asked before: one may read on in a file
from where the last call stopped, or keep its place in data that all its handles share.
`PluginOps.OpensAfresh` is assumed of every plugin; only of some it may be known that it
`Rereads` an open file.

* `getAttrsCached`: the attributes of a job by way of the cache; `Step`: what is done for
  them, file by file, and `Step.anew`: what a file gives when it is opened for it;
* `Transparent`: nobody can tell that there is a cache;
* `transparent_iff`: so it is when the files that a plugin visits one after the other are
  `Compatible`, and only then.
-/

namespace JobProvenance

/-! ## Files and plugins -/

/-- A file a plugin is asked about, with the URI of its class. -/
structure FileKey where
  cls : Bytes
  uri : Bytes
  name : Option Bytes
  deriving DecidableEq

/-- The operations of a plugin, which open a file, read an attribute and close the file. They
    depend on what plugins have done before, and leave something behind. -/
structure PluginOps (F H W : Type) where
  «open» : F → Bytes → W → Option H × W
  attr : H → Bytes → W → Option (List Attrval) × W
  close : H → W → W

namespace PluginOps

variable {F H W : Type} (o : PluginOps F H W)

/-- What is answered about a file that was opened just before, if it can be opened. -/
def ask (f : F) (uri attr : Bytes) (w : W) : Option (Option (List Attrval)) :=
  (o.open f uri w).1.map fun h => (o.attr h attr (o.open f uri w).2).1

/-- What is answered about a file that was opened just before does not depend on what was
    done earlier. -/
def OpensAfresh : Prop := ∀ f uri attr w w', o.ask f uri attr w = o.ask f uri attr w'

/-- What is answered about an open file does not depend on what was done since. -/
def Rereads : Prop := ∀ f uri attr w, ∀ h ∈ (o.open f uri w).1, ∀ w',
  o.ask f uri attr w = some (o.attr h attr w').1

end PluginOps

/-- What the lookup calls: the files of the job, the plugins by their place, the tags of the
    job and its metadata. -/
structure AttrBackend (F H W : Type) where
  openFile : Bytes → Option Bytes → Option F
  plugin : ℕ → ℕ → PluginOps F H W
  readTag : Bytes → Option (List Attrval)
  metadata : List Bytes → Except Errno (List Attrval)

/-- A namespace that is known, with the classes of each of its plugins and their URIs. -/
structure KnownNamespace where
  nsName : Bytes
  plugins : List (List (Bytes × Bytes))

/-- The places of the plugins of some namespaces. -/
def pluginPlaces (known : List KnownNamespace) : List (ℕ × ℕ) :=
  known.zipIdx.flatMap fun (n, j) => n.plugins.zipIdx.map fun (_, k) => (j, k)

/-- A slot of the cache that is not empty. -/
structure Opened (F H : Type) where
  openedClass : Bytes
  openedFile : Option Bytes
  opHandle : H
  ofHandle : F

/-- The slots of the cache: one for each plugin of each namespace. -/
abbrev Slots (F H : Type) := ℕ → ℕ → Option (Opened F H)

/-- A call of a plugin: the file it is for, and the handle it is given. -/
structure AttrCall (H : Type) where
  cls : Bytes
  name : Option Bytes
  handle : H
  attr : Bytes

/-- Values, and the call that gave them if it was one of a plugin. -/
structure Produced (H : Type) where
  call : Option (AttrCall H)
  vals : List Attrval

/-- A computation with the cache and the plugins. -/
abbrev Cached (F H W α : Type) := EStateM Stop (Slots F H × W) α

variable {F H W : Type}

namespace AttrBackend

variable (b : AttrBackend F H W)

/-- Opens a file for a plugin. -/
def opened (j k : ℕ) (key : FileKey) (w : W) : Option (Opened F H) × W :=
  match b.openFile key.cls key.name with
  | none => (none, w)
  | some beh =>
    let (ph, w) := (b.plugin j k).open beh key.uri w
    (ph.map fun ph => ⟨key.cls, key.name, ph, beh⟩, w)

/-- What an open file gives: nothing if there is none. -/
def produce (j k : ℕ) (attr : Bytes) (key : FileKey) (slot : Option (Opened F H)) (w : W) :
    Produced H × W :=
  match slot with
  | none => (⟨none, []⟩, w)
  | some o =>
    let (vals, w) := (b.plugin j k).attr o.opHandle attr w
    (⟨some ⟨key.cls, key.name, o.opHandle, attr⟩,
      (vals.getD []).map (fileValue key.uri key.name)⟩, w)

/-- Closes an open file. -/
def closed (j k : ℕ) (slot : Option (Opened F H)) (w : W) : W :=
  slot.elim w fun o => (b.plugin j k).close o.opHandle w

end AttrBackend

/-! ## The lookup -/

/-- Whether the file in a slot is the one that is wanted. Names are compared unless both are
    missing. -/
def isOpened (slot : Option (Opened F H)) (key : FileKey) : Exec Bool :=
  match slot with
  | none => .ok false
  | some o =>
    if o.openedClass = key.cls then
      match o.openedFile, key.name with
      | none, none => .ok true
      | some file, some name => .ok (file = name)
      | _, _ => .error .fault
    else .ok false

/-- Puts a file into a slot. -/
def setSlot (slots : Slots F H) (j k : ℕ) (slot : Option (Opened F H)) : Slots F H :=
  Function.update slots j (Function.update (slots j) k slot)

section Lookup

variable (b : AttrBackend F H W) (known : List KnownNamespace) (names : Bytes → List (Option Bytes))

/-- The file in a slot, or the one that is wanted when it is another; the one that is there is
    closed. -/
def slotFor (j k : ℕ) (key : FileKey) (slot : Option (Opened F H)) (hit : Bool) (w : W) :
    Option (Opened F H) × W :=
  if hit then (slot, w) else b.opened j k key (b.closed j k slot w)

/-- Asks a plugin about a file, which is opened unless the slot of the plugin has it. -/
def useFile (j k : ℕ) (attr : Bytes) (key : FileKey) : Cached F H W (Produced H) :=
  fun (slots, w) =>
    match isOpened (slots j k) key with
    | .error e => .error e (slots, w)
    | .ok hit =>
      let (slot, w) := slotFor b j k key (slots j k) hit w
      let (p, w) := b.produce j k attr key slot w
      .ok p (setSlot slots j k slot, w)

/-- Asks a plugin about the files of a class. -/
def processFilesCached (j k : ℕ) (attr cls uri : Bytes) : Cached F H W (List (Produced H)) :=
  (names cls).mapM fun name => useFile b j k attr ⟨cls, uri, name⟩

/-- The values of a tag. -/
def tagProduced (attr : Bytes) : Produced H := ⟨none, (b.readTag attr).getD []⟩

/-- The values of an attribute: of a tag, and those the plugins of its namespace find. -/
def getAttrCached (attr : Bytes) : Cached F H W (List (Produced H)) :=
  match known.zipIdx.find? (·.1.nsName = attrNamespace attr) with
  | none => return [tagProduced b attr]
  | some (n, j) => do
    let vals ← n.plugins.zipIdx.mapM fun (types, k) => do
      let vals ← types.mapM fun (cls, uri) => processFilesCached b names j k attr cls uri
      return vals.flatten
    return tagProduced b attr :: vals.flatten

/-- Closes the file in a slot. -/
def closeSlot (s : Slots F H × W) (p : ℕ × ℕ) : Slots F H × W :=
  (setSlot s.1 p.1 p.2 none, b.closed p.1 p.2 (s.1 p.1 p.2) s.2)

/-- Closes the files in the slots of all plugins. -/
def closePlugins (s : Slots F H × W) : Slots F H × W :=
  (pluginPlaces known).foldl (closeSlot b) s

/-- The return value for some values. -/
def answerRet (out : List (Produced H)) : Ret :=
  if out.flatMap Produced.vals = [] then some .ENOENT else none

/-- The metadata that are asked for. -/
def metadataOf (attr : List Bytes) : Except Errno (List Attrval) :=
  if attr.filter isMetadata = [] then .ok [] else b.metadata (attr.filter isMetadata)

/-- The attributes of a job. -/
def getAttrsCached (attr : List Bytes) : Cached F H W (Ret × List (Produced H)) :=
  match metadataOf b attr with
  | .error err => return (some err, [])
  | .ok metadata => do
    let vals ← (attr.filter (!isMetadata ·)).mapM (getAttrCached b known names)
    modify (closePlugins b known)
    let out := vals.flatten ++ [⟨none, metadata⟩]
    return (answerRet out, out)

end Lookup

/-! ## Step by step -/

/-- What is done for an attribute: its tag is read, and a plugin is asked about a file. -/
inductive Step
  | tag (attr : Bytes)
  | file (j k : ℕ) (attr : Bytes) (key : FileKey)

namespace Step

variable (b : AttrBackend F H W)

/-- A step with the cache. -/
def run : Step → Cached F H W (Produced H)
  | tag attr => return tagProduced b attr
  | file j k attr key => useFile b j k attr key

/-- A step for which the file is opened anew, and closed again. -/
def anew : Step → W → Produced H × W
  | tag attr, w => (tagProduced b attr, w)
  | file j k attr key, w =>
    let (slot, w) := b.opened j k key w
    let (p, w) := b.produce j k attr key slot w
    (p, b.closed j k slot w)

/-- Steps for which the files are opened anew, one after the other. -/
def allAnew : List Step → W → List (Produced H)
  | [], _ => []
  | s :: steps, w => (s.anew b w).1 :: allAnew steps (s.anew b w).2

/-- The file a plugin is asked about. -/
def fileOf (j k : ℕ) : Step → Option FileKey
  | tag _ => none
  | file j' k' _ key => if j' = j ∧ k' = k then some key else none

end Step

section Steps

variable (known : List KnownNamespace) (names : Bytes → List (Option Bytes))

/-- The steps for an attribute. -/
def attrSteps (attr : Bytes) : List Step :=
  .tag attr :: match known.zipIdx.find? (·.1.nsName = attrNamespace attr) with
    | none => []
    | some (n, j) => n.plugins.zipIdx.flatMap fun (types, k) =>
      types.flatMap fun (cls, uri) => (names cls).map fun name => .file j k attr ⟨cls, uri, name⟩

/-- The steps for some attributes. -/
def allSteps (attr : List Bytes) : List Step :=
  (attr.filter (!isMetadata ·)).flatMap (attrSteps known names)

/-- The files a plugin is asked about, one after the other. -/
def visitedFiles (attr : List Bytes) (j k : ℕ) : List FileKey :=
  (allSteps known names attr).filterMap (Step.fileOf j k)

/-- The attributes of a job when every file is opened anew each time a plugin is asked, and
    closed again. -/
def getAttrsAnew (b : AttrBackend F H W) (attr : List Bytes) (w : W) :
    Ret × List (Produced H) :=
  match metadataOf b attr with
  | .error err => (some err, [])
  | .ok metadata =>
    let out := Step.allAnew b (allSteps known names attr) w ++ [⟨none, metadata⟩]
    (answerRet out, out)

/-- A call gets a handle of its file. -/
def AttrCall.Handled (b : AttrBackend F H W) (call : AttrCall H) : Prop :=
  ∃ j k uri w, ∃ o ∈ (b.opened j k ⟨call.cls, uri, call.name⟩ w).1, o.opHandle = call.handle

/-- The plugins open files afresh, and those that are said to read them again do. -/
def AttrBackend.Lawful (b : AttrBackend F H W) (rereads : ℕ → ℕ → Bool) : Prop :=
  ∀ j k, (b.plugin j k).OpensAfresh ∧ (rereads j k = true → (b.plugin j k).Rereads)

/-- Nobody can tell that there is a cache, whatever the plugins are: no missing name is
    compared, the return value and the values are those of files that are opened anew,
    every call gets a handle of its file, and the cache is empty afterwards. -/
def Transparent (rereads : ℕ → ℕ → Bool) (attr : List Bytes) : Prop :=
  ∀ (F H W : Type) (b : AttrBackend F H W) (w : W), b.Lawful rereads → ∃ ret out w',
    getAttrsCached b known names attr (fun _ _ => none, w) = .ok (ret, out) (fun _ _ => none, w') ∧
    ret = (getAttrsAnew known names b attr w).1 ∧
    out.flatMap Produced.vals = (getAttrsAnew known names b attr w).2.flatMap Produced.vals ∧
    ∀ p ∈ out, ∀ call ∈ p.call, call.Handled b

/-- Two files that a plugin may be asked about one after the other: of the same class both
    have a name or none has one; with the same name the plugin reads an open file again, and
    they have the same URI. -/
def Compatible (rereads : Bool) (a b : FileKey) : Prop :=
  a.cls = b.cls → (a.name = none ↔ b.name = none) ∧
    (a.name = b.name → rereads = true ∧ a.uri = b.uri)

instance decidableCompatible (rereads : Bool) (a b : FileKey) :
    Decidable (Compatible rereads a b) :=
  inferInstanceAs (Decidable (a.cls = b.cls → (a.name = none ↔ b.name = none) ∧
    (a.name = b.name → rereads = true ∧ a.uri = b.uri)))

/-- A list of lists that is gone through is one list. -/
theorem mapM_flatMap {m : Type → Type} [Monad m] [LawfulMonad m] {α β γ : Type} (f : β → m γ)
    (g : α → List β) (as : List α) : (as.flatMap g).mapM f =
      (as.mapM fun a => (g a).mapM f) >>= fun bss => pure bss.flatten := by
  induction as with
  | nil => simp
  | cons a as ih => simp [List.mapM_append, ih]

variable {known names} {b : AttrBackend F H W}

theorem getAttrCached_eq (attr : Bytes) :
    getAttrCached b known names attr = (attrSteps known names attr).mapM (Step.run b) := by
  rw [getAttrCached, attrSteps]
  split
  · simp [Step.run]
  · rw [List.mapM_cons, mapM_flatMap]
    simp only [mapM_flatMap, List.mapM_map, processFilesCached]
    simp [Step.run]
    rfl

/-- The lookup goes through its steps. -/
theorem mapM_getAttrCached (attr : List Bytes) :
    ((attr.filter (!isMetadata ·)).mapM (getAttrCached b known names) >>= fun vals =>
      pure vals.flatten) = (allSteps known names attr).mapM (Step.run b) := by
  rw [allSteps, mapM_flatMap]
  congr 2
  funext attr
  exact getAttrCached_eq attr

end Steps

/-! ## What the cache does -/

section Cache

variable {b : AttrBackend F H W} {slots : Slots F H} {w w' : W} {rereads : ℕ → ℕ → Bool}
  {prev : ℕ → ℕ → Option FileKey} {steps : List Step} {j k : ℕ} {key : FileKey} {attr : Bytes}

/-- What is answered about a file that is opened anew. -/
def AttrBackend.answer (b : AttrBackend F H W) (j k : ℕ) (attr : Bytes) (key : FileKey) (w : W) :
    Option (List Attrval) :=
  (b.openFile key.cls key.name).bind fun beh => ((b.plugin j k).ask beh key.uri attr w).join

/-- The values of a file for an answer. -/
def FileKey.vals (key : FileKey) (answer : Option (List Attrval)) : List Attrval :=
  (answer.getD []).map (fileValue key.uri key.name)

theorem anew_vals (w : W) : ((Step.file j k attr key).anew b w).1.vals =
    key.vals (b.answer j k attr key w) := by
  rw [AttrBackend.answer]
  simp only [Step.anew, AttrBackend.opened]
  cases b.openFile key.cls key.name with
  | none => rfl
  | some beh =>
    simp only [Option.bind_some, PluginOps.ask]
    cases ((b.plugin j k).open beh key.uri w).1 <;> rfl

/-- What is opened anew gives the same at any time. -/
theorem AttrBackend.Lawful.vals_eq (h : b.Lawful rereads) (s : Step) (w w' : W) :
    (s.anew b w).1.vals = (s.anew b w').1.vals := by
  cases s with
  | tag attr => rfl
  | file j k attr key =>
    rw [anew_vals, anew_vals, AttrBackend.answer, AttrBackend.answer]
    congr 1
    refine Option.bind_congr fun beh _ => ?_
    rw [(h j k).1 beh key.uri attr w w']

theorem AttrBackend.Lawful.allAnew_vals (h : b.Lawful rereads) (steps : List Step) (w w' : W) :
    (Step.allAnew b steps w).map Produced.vals = steps.map fun s => (s.anew b w').1.vals := by
  induction steps generalizing w with
  | nil => rfl
  | cons s steps ih =>
    rw [Step.allAnew, List.map_cons, List.map_cons, ih, h.vals_eq s w w']

theorem opened_eq_some {o : Opened F H} (h : (b.opened j k key w).1 = some o) :
    o.openedClass = key.cls ∧ o.openedFile = key.name ∧ ∃ beh,
      b.openFile key.cls key.name = some beh ∧
        o.opHandle ∈ ((b.plugin j k).open beh key.uri w).1 := by
  unfold AttrBackend.opened at h
  split at h
  · cases h
  · rename_i beh hopen
    obtain ⟨ph, hph, rfl⟩ := Option.map_eq_some_iff.1 h
    exact ⟨rfl, rfl, beh, hopen, hph⟩

/-- A file in a slot is one that was opened. -/
def IsOpened (b : AttrBackend F H W) (j k : ℕ) (key : FileKey) (slot : Option (Opened F H)) :
    Prop := ∀ o ∈ slot, ∃ w, (b.opened j k key w).1 = some o

/-- The slots hold the files that were visited last, as far as these could be opened. -/
def SlotsHold (b : AttrBackend F H W) (prev : ℕ → ℕ → Option FileKey) (slots : Slots F H) : Prop :=
  ∀ j k, ∀ o ∈ slots j k, ∃ key ∈ prev j k, IsOpened b j k key (some o)

/-- Behind a compatible file the slot is used only for the file that is wanted, and by a plugin
    that reads it again. -/
theorem isOpened_eq {r : Bool} {slot : Option (Opened F H)}
    (h : ∀ o ∈ slot, ∃ p, Compatible r p key ∧ IsOpened b j k p (some o)) :
    ∃ hit, isOpened slot key = .ok hit ∧
      (hit = true → r = true ∧ slot.isSome = true ∧ IsOpened b j k key slot) := by
  cases slot with
  | none => exact ⟨false, rfl, nofun⟩
  | some o =>
    obtain ⟨p, hcompat, hopened⟩ := h o rfl
    obtain ⟨w, ho⟩ := hopened o rfl
    obtain ⟨hcls, hname, -⟩ := opened_eq_some ho
    rw [isOpened, hcls, hname]
    by_cases hc : p.cls = key.cls
    · obtain ⟨hnone, huri⟩ := hcompat hc
      rw [if_pos hc]
      -- the same class, name and URI are the same file
      have hsame : p.name = key.name → r = true ∧ IsOpened b j k key (some o) := fun hn => by
        obtain ⟨hr, hu⟩ := huri hn
        have hp : p = key := by
          cases p
          cases key
          simp_all
        exact ⟨hr, hp ▸ hopened⟩
      cases hp : p.name with
      | none =>
        have hk := hnone.1 hp
        obtain ⟨hr, hkey⟩ := hsame (hp.trans hk.symm)
        rw [hk]
        exact ⟨true, rfl, fun _ => ⟨hr, rfl, hkey⟩⟩
      | some file =>
        cases hk : key.name with
        | none => exact absurd (hnone.2 hk) (by rw [hp]; exact Option.some_ne_none file)
        | some name =>
          refine ⟨decide (file = name), rfl, fun hn => ?_⟩
          obtain ⟨hr, hkey⟩ := hsame (by rw [hp, hk, of_decide_eq_true hn])
          exact ⟨hr, rfl, hkey⟩
    · rw [if_neg hc]
      exact ⟨false, rfl, fun hfalse => absurd hfalse Bool.false_ne_true⟩

/-- An open file gives its plugin's answer to a file that is opened anew, when the plugin reads
    it again. -/
theorem produce_vals (hlaw : b.Lawful rereads) (hrereads : rereads j k = true)
    {slot : Option (Opened F H)} (hsome : slot.isSome = true) (hslot : IsOpened b j k key slot)
    (w w' : W) : (b.produce j k attr key slot w).1.vals =
      ((Step.file j k attr key).anew b w').1.vals := by
  obtain ⟨o, rfl⟩ := Option.isSome_iff_exists.1 hsome
  obtain ⟨w₁, ho⟩ := hslot o rfl
  obtain ⟨-, -, beh, hopen, hhandle⟩ := opened_eq_some ho
  rw [hlaw.vals_eq _ w' w₁, anew_vals, AttrBackend.answer, hopen, Option.bind_some,
    (hlaw j k).2 hrereads beh key.uri attr w₁ _ hhandle w]
  rfl

/-- The calls for a file get a handle of it. -/
theorem handled_produce {slot : Option (Opened F H)} (hslot : IsOpened b j k key slot)
    {call : AttrCall H} (hcall : call ∈ (b.produce j k attr key slot w).1.call) :
    call.Handled b := by
  cases slot with
  | none => cases hcall
  | some o =>
    obtain rfl := Option.some.inj hcall
    obtain ⟨w, ho⟩ := hslot o rfl
    exact ⟨j, k, key.uri, w, o, ho, rfl⟩

/-- Asking about a file that is compatible with the one before gives what the file gives when
    it is opened anew. -/
theorem useFile_eq (hlaw : b.Lawful rereads) (hslots : SlotsHold b prev slots)
    (h : ∀ p ∈ prev j k, Compatible (rereads j k) p key) (attr : Bytes) (w w₀ : W) :
    ∃ p slot w', useFile b j k attr key (slots, w) = .ok p (setSlot slots j k slot, w') ∧
      p.vals = ((Step.file j k attr key).anew b w₀).1.vals ∧
      (∀ call ∈ p.call, call.Handled b) ∧ IsOpened b j k key slot := by
  obtain ⟨hit, hopened, hhit⟩ := @isOpened_eq _ _ _ b j k key (rereads j k) (slots j k) fun o ho =>
    (hslots j k o ho).imp fun p hp => ⟨h p hp.1, hp.2⟩
  simp only [useFile, hopened, slotFor]
  cases hit with
  | true =>
    obtain ⟨hr, hsome, hslot⟩ := hhit rfl
    exact ⟨_, _, _, rfl, produce_vals hlaw hr hsome hslot _ _, fun _ => handled_produce hslot,
      hslot⟩
  | false =>
    have hslot : IsOpened b j k key (b.opened j k key (b.closed j k (slots j k) w)).1 :=
      fun o ho => ⟨_, ho⟩
    exact ⟨_, _, _, rfl, hlaw.vals_eq (.file j k attr key) _ _, fun _ => handled_produce hslot,
      hslot⟩

theorem setSlot_apply (slots : Slots F H) (slot : Option (Opened F H)) (j' k' : ℕ) :
    setSlot slots j k slot j' k' = if j' = j ∧ k' = k then slot else slots j' k' := by
  by_cases hj : j' = j
  · subst hj
    by_cases hk : k' = k
    · subst hk
      simp [setSlot]
    · simp [setSlot, hk]
  · simp [setSlot, hj]

/-- The files that were visited last, with one more. -/
def visit (prev : ℕ → ℕ → Option FileKey) (s : Step) (j k : ℕ) : Option FileKey :=
  (s.fileOf j k).or (prev j k)

theorem visit_file (j' k' : ℕ) : visit prev (.file j k attr key) j' k' =
    if j' = j ∧ k' = k then some key else prev j' k' := by
  rw [visit, Step.fileOf]
  by_cases h : j' = j ∧ k' = k
  · rw [if_pos h, if_pos ⟨h.1.symm, h.2.symm⟩, Option.some_or]
  · rw [if_neg h, if_neg fun h' => h ⟨h'.1.symm, h'.2.symm⟩, Option.none_or]

/-- The files a plugin is asked about from a state on. -/
def visits (prev : ℕ → ℕ → Option FileKey) (steps : List Step) (j k : ℕ) : List FileKey :=
  (prev j k).toList ++ steps.filterMap (Step.fileOf j k)

/-- The first of the files a plugin is asked about is compatible with the one before, and so
    are the ones behind it. -/
theorem isChain_visits_cons {s : Step} :
    (∀ j k, (visits prev (s :: steps) j k).IsChain (Compatible (rereads j k))) ↔
      (∀ j k, ∀ key ∈ s.fileOf j k, ∀ p ∈ prev j k, Compatible (rereads j k) p key) ∧
        ∀ j k, (visits (visit prev s) steps j k).IsChain (Compatible (rereads j k)) := by
  simp only [← forall_and]
  refine forall_congr' fun j => forall_congr' fun k => ?_
  rw [visits, visits, visit, List.filterMap_cons]
  cases s.fileOf j k with
  | none => simp
  | some key => cases prev j k <;> simp

/-- A step with the cache gives what it gives with a file that is opened anew. -/
theorem run_eq (hlaw : b.Lawful rereads) {s : Step} (hslots : SlotsHold b prev slots)
    (h : ∀ j k, ∀ key ∈ s.fileOf j k, ∀ p ∈ prev j k, Compatible (rereads j k) p key) (w w₀ : W) :
    ∃ p slots' w', s.run b (slots, w) = .ok p (slots', w') ∧ p.vals = (s.anew b w₀).1.vals ∧
      (∀ call ∈ p.call, call.Handled b) ∧ SlotsHold b (visit prev s) slots' := by
  cases s with
  | tag attr => exact ⟨_, slots, w, rfl, rfl, (fun _ hcall => by cases hcall), hslots⟩
  | file j k attr key =>
    obtain ⟨p, slot, w', hrun, hvals, hcalls, hslot⟩ :=
      useFile_eq hlaw hslots (h j k key (if_pos ⟨rfl, rfl⟩)) attr w w₀
    refine ⟨p, _, w', hrun, hvals, hcalls, fun j' k' o ho => ?_⟩
    rw [setSlot_apply] at ho
    rw [visit_file]
    by_cases hjk : j' = j ∧ k' = k
    · obtain ⟨rfl, rfl⟩ := hjk
      rw [if_pos ⟨rfl, rfl⟩] at ho ⊢
      obtain rfl : slot = some o := ho
      exact ⟨key, rfl, hslot⟩
    · rw [if_neg hjk] at ho ⊢
      exact hslots j' k' o ho

/-- Steps with the cache give what they give with files that are opened anew. -/
theorem mapM_run (hlaw : b.Lawful rereads) (hslots : SlotsHold b prev slots)
    (hchain : ∀ j k, (visits prev steps j k).IsChain (Compatible (rereads j k))) (w w₀ : W) :
    ∃ ps slots' w', steps.mapM (Step.run b) (slots, w) = .ok ps (slots', w') ∧
      (ps.map Produced.vals = steps.map fun s => (s.anew b w₀).1.vals) ∧
      (∀ p ∈ ps, ∀ call ∈ p.call, call.Handled b) ∧
      SlotsHold b (steps.foldl visit prev) slots' := by
  induction steps generalizing prev slots w with
  | nil => exact ⟨[], slots, w, rfl, rfl, List.forall_mem_nil _, hslots⟩
  | cons s steps ih =>
    obtain ⟨hhead, htail⟩ := isChain_visits_cons.1 hchain
    obtain ⟨p, slots₁, w₁, hrun, hvals, hcalls, hslots₁⟩ := run_eq hlaw hslots hhead w w₀
    obtain ⟨ps, slots₂, w₂, hrest, hvals', hcalls', hslots₂⟩ := ih hslots₁ htail w₁
    refine ⟨p :: ps, slots₂, w₂, ?_, ?_, List.forall_mem_cons.2 ⟨hcalls, hcalls'⟩, hslots₂⟩
    · rw [List.mapM_cons, Stateful.bind_of_ok hrun, Stateful.bind_of_ok hrest]
      rfl
    · rw [List.map_cons, List.map_cons, hvals, hvals']

end Cache

/-! ## Plugins that tell -/

/-- Plugins that read every file, and say with which URI it was opened. They count the questions
    since one of them opened a file, and those that do not read again say that, too. -/
def telling (rereads : ℕ → ℕ → Bool) : AttrBackend Unit Bytes ℕ where
  openFile _ _ := some ()
  plugin j k :=
    { «open» := fun _ uri _ => (some uri, 0)
      attr := fun uri _ w => (some [systemValue [] uri (if rereads j k then 0 else w)], w + 1)
      close := fun _ w => w }
  readTag _ := none
  metadata _ := .ok []

section Telling

variable {rereads : ℕ → ℕ → Bool} {slots slots' : Slots Unit Bytes} {w w' : ℕ}
  {prev : ℕ → ℕ → Option FileKey} {steps : List Step} {j k : ℕ} {attr : Bytes} {key : FileKey}

theorem lawful_telling : (telling rereads).Lawful rereads := by
  refine fun j k => ⟨fun f uri attr w w' => rfl, fun hr f uri attr w h hopen w' => ?_⟩
  obtain rfl := Option.some.inj hopen
  simp only [telling, PluginOps.ask, hr, if_true, Option.map_some]

/-- A file as it is opened for such plugins. -/
def tellingOpened (key : FileKey) : Opened Unit Bytes := ⟨key.cls, key.name, key.uri, ()⟩

/-- What such a plugin gives of a file that is opened anew. -/
theorem anew_telling : ((Step.file j k attr key).anew (telling rereads) w).1.vals =
    [fileValue key.uri key.name (systemValue [] key.uri 0)] := by
  simp [Step.anew, AttrBackend.opened, AttrBackend.produce, telling]

/-- The slots hold the files that were visited last, and since then there was a question. -/
structure Told (prev : ℕ → ℕ → Option FileKey) (slots : Slots Unit Bytes) (w : ℕ) : Prop where
  slots : ∀ j k, slots j k = (prev j k).map tellingOpened
  asked : ∀ j k, prev j k ≠ none → 0 < w

/-- A file that is in the slot is the one that is wanted. -/
theorem of_isOpened_true {slot : Option (Opened F H)} (h : isOpened slot key = .ok true) :
    ∃ o ∈ slot, o.openedClass = key.cls ∧ o.openedFile = key.name := by
  cases slot with
  | none => cases h
  | some o =>
    refine ⟨o, rfl, ?_⟩
    simp only [isOpened] at h
    split_ifs at h with hcls
    · refine ⟨hcls, ?_⟩
      split at h
      · rename_i hfile hname
        rw [hfile, hname]
      · rename_i file name hfile hname
        rw [hfile, hname, of_decide_eq_true (Except.ok.inj h)]
      · cases h
    · cases h

/-- A file that is not the one in the slot differs from it in the class, or both have a name and
    these differ. -/
theorem of_isOpened_false {slot : Option (Opened F H)} (h : isOpened slot key = .ok false) :
    ∀ o ∈ slot, o.openedClass = key.cls →
      (o.openedFile = none ↔ key.name = none) ∧ o.openedFile ≠ key.name := by
  rintro o rfl hcls
  rw [isOpened, if_pos hcls] at h
  split at h
  · cases h
  · rename_i file name hfile hname
    rw [hfile, hname]
    refine ⟨iff_of_false (Option.some_ne_none _) (Option.some_ne_none _), fun heq => ?_⟩
    exact of_decide_eq_false (Except.ok.inj h) (Option.some.inj heq)
  · cases h

/-- Such a plugin tells of a file that is opened for it. -/
theorem useFile_miss (h : isOpened (slots j k) key = .ok false) :
    useFile (telling rereads) j k attr key (slots, w) =
      .ok ⟨some ⟨key.cls, key.name, key.uri, attr⟩,
          [fileValue key.uri key.name (systemValue [] key.uri 0)]⟩
        (setSlot slots j k (some (tellingOpened key)), 1) := by
  simp [useFile, h, slotFor, AttrBackend.opened, AttrBackend.produce, telling, tellingOpened]

/-- Such a plugin tells of a file that is open. -/
theorem useFile_hit {q : FileKey} (hslot : slots j k = some (tellingOpened q))
    (h : isOpened (slots j k) key = .ok true) :
    useFile (telling rereads) j k attr key (slots, w) =
      .ok ⟨some ⟨key.cls, key.name, q.uri, attr⟩, [fileValue key.uri key.name
          (systemValue [] q.uri (if rereads j k then 0 else w))]⟩
        (setSlot slots j k (some (tellingOpened q)), w + 1) := by
  rw [hslot] at h
  simp only [useFile, hslot, h, slotFor, if_true]
  rfl

theorem Told.visit_file (h : Told prev slots w) (hw : 0 < w') :
    Told (visit prev (.file j k attr key)) (setSlot slots j k (some (tellingOpened key))) w' where
  slots j' k' := by
    rw [setSlot_apply, JobProvenance.visit_file, h.slots]
    split_ifs <;> rfl
  asked _ _ _ := hw

/-- A plugin that is asked about a file gives one value. If it is that of a file opened anew, the
    file is compatible with the one before. -/
theorem told_of_useFile (h : Told prev slots w) {p : Produced Bytes} {s : Slots Unit Bytes × ℕ}
    (hrun : useFile (telling rereads) j k attr key (slots, w) = .ok p s) :
    p.vals.length = 1 ∧
      (p.vals = [fileValue key.uri key.name (systemValue [] key.uri 0)] →
        (∀ q ∈ prev j k, Compatible (rereads j k) q key) ∧
          Told (visit prev (.file j k attr key)) s.1 s.2) := by
  cases hopened : isOpened (slots j k) key with
  | error e =>
    simp only [useFile, hopened] at hrun
    cases hrun
  | ok hit =>
    cases hit with
    | false =>
      rw [useFile_miss hopened] at hrun
      obtain ⟨rfl, rfl⟩ := EStateM.Result.ok.inj hrun
      refine ⟨rfl, fun _ => ⟨fun q hq hcls => ?_, h.visit_file Nat.one_pos⟩⟩
      have hdiffer := of_isOpened_false hopened (tellingOpened q) (by rw [h.slots, hq]; rfl) hcls
      exact ⟨hdiffer.1, fun heq => absurd heq hdiffer.2⟩
    | true =>
      obtain ⟨o, ho, hcls, hname⟩ := of_isOpened_true hopened
      rw [h.slots] at ho
      obtain ⟨q, hq, rfl⟩ := Option.map_eq_some_iff.1 ho
      have hslot : slots j k = some (tellingOpened q) := by rw [h.slots, hq]; rfl
      rw [useFile_hit hslot hopened] at hrun
      obtain ⟨rfl, rfl⟩ := EStateM.Result.ok.inj hrun
      refine ⟨rfl, fun hvals => ?_⟩
      -- what is told is the URI of the open file, and that there was a question since
      have huri : q.uri = key.uri := congrArg Attrval.value (List.singleton_inj.1 hvals)
      have htime : (if rereads j k then 0 else (w : ℤ)) = 0 :=
        congrArg Attrval.timestamp (List.singleton_inj.1 hvals)
      have hasked : 0 < w := h.asked j k (by rw [hq]; exact Option.some_ne_none q)
      have hrereads : rereads j k = true := by
        by_contra hr
        rw [if_neg hr] at htime
        exact hasked.ne' (Int.natCast_eq_zero.1 htime)
      have hsame : q = key := by
        cases q
        cases key
        exact FileKey.mk.injEq _ _ _ _ _ _ ▸ ⟨hcls, huri, hname⟩
      refine ⟨fun q' hq' _ => ?_, hsame ▸ h.visit_file (Nat.succ_pos w)⟩
      obtain rfl := Option.some.inj (hq.symm.trans hq')
      exact ⟨by rw [hsame], fun _ => ⟨hrereads, huri⟩⟩

/-- Such plugins give what they give of files that are opened anew only when the files they
    are asked about are compatible. -/
theorem isChain_of_mapM_run {ps : List (Produced Bytes)} {s : Slots Unit Bytes × ℕ}
    (hslots : Told prev slots w)
    (hrun : steps.mapM (Step.run (telling rereads)) (slots, w) = .ok ps s)
    (hvals : ps.flatMap Produced.vals =
      (steps.map fun s => (s.anew (telling rereads) 0).1.vals).flatten) :
    ∀ j k, (visits prev steps j k).IsChain (Compatible (rereads j k)) := by
  induction steps generalizing prev slots w ps with
  | nil =>
    intro j k
    rw [visits]
    cases prev j k <;> simp
  | cons step steps ih =>
    rw [List.mapM_cons] at hrun
    obtain ⟨p, ⟨slots₁, w₁⟩, hstep, hrun⟩ := Stateful.bind_eq_ok.1 hrun
    obtain ⟨ps', s₂, hrest, hrun⟩ := Stateful.bind_eq_ok.1 hrun
    obtain ⟨rfl, rfl⟩ := Stateful.pure_eq_ok.1 hrun
    rw [List.flatMap_cons, List.map_cons, List.flatten_cons] at hvals
    cases step with
    | tag attr =>
      obtain ⟨rfl, hstate⟩ := Stateful.pure_eq_ok.1 hstep
      obtain ⟨rfl, rfl⟩ := Prod.mk.inj hstate
      exact isChain_visits_cons.2 ⟨(fun _ _ _ hkey => by cases hkey), ih hslots hrest hvals⟩
    | file j k attr key =>
      obtain ⟨hlength, htold⟩ := told_of_useFile hslots hstep
      rw [anew_telling] at hvals
      obtain ⟨hp, htail⟩ := List.append_inj hvals hlength
      obtain ⟨hcompat, hslots₁⟩ := htold hp
      refine isChain_visits_cons.2 ⟨fun j' k' key' hkey => ?_, ih hslots₁ hrest htail⟩
      rw [Step.fileOf] at hkey
      split_ifs at hkey with hjk
      · obtain ⟨rfl, rfl⟩ := hjk
        obtain rfl := Option.some.inj hkey
        exact hcompat
      · cases hkey

end Telling

/-! ## Whether anybody can tell -/

section Transparency

variable {known : List KnownNamespace} {names : Bytes → List (Option Bytes)}
  {rereads : ℕ → ℕ → Bool} {attr : List Bytes} {b : AttrBackend F H W} {j k : ℕ}

/-- Only plugins that are known are asked about files. -/
theorem fileOf_allSteps (hjk : (j, k) ∉ pluginPlaces known) :
    ∀ s ∈ allSteps known names attr, s.fileOf j k = none := by
  intro s hs
  obtain ⟨a, -, hs⟩ := List.mem_flatMap.1 hs
  rw [attrSteps, List.mem_cons] at hs
  rcases hs with rfl | hs
  · rfl
  · split at hs
    · cases hs
    · rename_i n j' hfind
      obtain ⟨⟨types, k'⟩, hplugin, hs⟩ := List.mem_flatMap.1 hs
      obtain ⟨⟨cls, uri⟩, -, hs⟩ := List.mem_flatMap.1 hs
      obtain ⟨name, -, rfl⟩ := List.mem_map.1 hs
      refine if_neg ?_
      rintro ⟨rfl, rfl⟩
      exact hjk (List.mem_flatMap.2 ⟨(n, j'), List.mem_of_find?_eq_some hfind,
        List.mem_map.2 ⟨(types, k'), hplugin, rfl⟩⟩)

theorem foldl_visit_eq_none {prev : ℕ → ℕ → Option FileKey} {steps : List Step}
    (h : ∀ s ∈ steps, s.fileOf j k = none) (hprev : prev j k = none) :
    steps.foldl visit prev j k = none := by
  induction steps generalizing prev with
  | nil => exact hprev
  | cons s steps ih =>
    obtain ⟨hs, h⟩ := List.forall_mem_cons.1 h
    exact ih h (by rw [visit, hs, hprev]; rfl)

/-- The slots at some places are empty when the files in them are closed. -/
theorem foldl_closeSlot (places : List (ℕ × ℕ)) (s : Slots F H × W) :
    (places.foldl (closeSlot b) s).1 j k = if (j, k) ∈ places then none else s.1 j k := by
  induction places generalizing s with
  | nil => rfl
  | cons p places ih =>
    have hslot : (closeSlot b s p).1 j k = if (j, k) = p then none else s.1 j k := by
      simp only [closeSlot, setSlot_apply, Prod.ext_iff]
    rw [List.foldl_cons, ih, hslot]
    by_cases hplaces : (j, k) ∈ places
    · rw [if_pos hplaces, if_pos (List.mem_cons_of_mem p hplaces)]
    · rw [if_neg hplaces]
      simp only [List.mem_cons, hplaces, or_false]

/-- All slots are empty when the files in the slots of all plugins are closed. -/
theorem closePlugins_eq {slots : Slots F H} (w : W)
    (h : SlotsHold b ((allSteps known names attr).foldl visit fun _ _ => none) slots) :
    (closePlugins b known (slots, w)).1 = fun _ _ => none := by
  funext j k
  rw [closePlugins, foldl_closeSlot]
  split_ifs with hjk
  · rfl
  · cases hslot : slots j k with
    | none => exact hslot
    | some o =>
      obtain ⟨key, hkey, -⟩ := h j k o hslot
      rw [foldl_visit_eq_none (fileOf_allSteps hjk) rfl] at hkey
      cases hkey

theorem visits_none (j k : ℕ) : visits (fun _ _ => none) (allSteps known names attr) j k =
    visitedFiles known names attr j k := rfl

/-- Files that are compatible are found as if there was no cache. -/
theorem transparent_of_isChain
    (h : ∀ j k, (visitedFiles known names attr j k).IsChain (Compatible (rereads j k))) :
    Transparent known names rereads attr := by
  intro F H W b w hlaw
  cases hmeta : metadataOf b attr with
  | error err =>
    refine ⟨some err, [], w, ?_, ?_, ?_, List.forall_mem_nil _⟩
    · simp only [getAttrsCached, hmeta, Stateful.pure_apply]
    · simp only [getAttrsAnew, hmeta]
    · simp only [getAttrsAnew, hmeta]
  | ok metadata =>
    obtain ⟨ps, slots, w₁, hrun, hvals, hcalls, hslots⟩ :=
      @mapM_run _ _ _ b (fun _ _ => none) rereads (fun _ _ => none) _ hlaw
        (fun _ _ o ho => by cases ho) h w w
    rw [← mapM_getAttrCached] at hrun
    obtain ⟨vals, s', hsteps, hrun⟩ := Stateful.bind_eq_ok.1 hrun
    obtain ⟨rfl, rfl⟩ := Stateful.pure_eq_ok.1 hrun
    have hflat : (vals.flatten ++ [(⟨none, metadata⟩ : Produced H)]).flatMap Produced.vals =
        (Step.allAnew b (allSteps known names attr) w ++
          [(⟨none, metadata⟩ : Produced H)]).flatMap Produced.vals := by
      rw [List.flatMap_append, List.flatMap_append, @List.flatMap_def _ _ vals.flatten, hvals,
        ← hlaw.allAnew_vals _ w w, ← List.flatMap_def]
    have hret : answerRet (vals.flatten ++ [(⟨none, metadata⟩ : Produced H)]) =
        answerRet (Step.allAnew b (allSteps known names attr) w ++ [⟨none, metadata⟩]) := by
      rw [answerRet, answerRet, hflat]
    obtain ⟨w₂, hclosed⟩ : ∃ w₂, closePlugins b known (slots, w₁) = (fun _ _ => none, w₂) :=
      ⟨_, Prod.ext (closePlugins_eq w₁ hslots) rfl⟩
    refine ⟨_, vals.flatten ++ [⟨none, metadata⟩], w₂, ?_, rfl, ?_, fun p hp => ?_⟩
    · simp only [getAttrsCached, getAttrsAnew, hmeta]
      rw [Stateful.bind_of_ok hsteps, ← hret]
      exact congrArg (EStateM.Result.ok _) hclosed
    · simp only [getAttrsAnew, hmeta]
      exact hflat
    · rcases List.mem_append.1 hp with hp | hp
      · exact hcalls p hp
      · obtain rfl := List.mem_singleton.1 hp
        exact fun _ hcall => by cases hcall

/-- Otherwise there are plugins that tell. -/
theorem isChain_of_transparent (h : Transparent known names rereads attr) (j k : ℕ) :
    (visitedFiles known names attr j k).IsChain (Compatible (rereads j k)) := by
  obtain ⟨ret, out, w', hrun, -, hvals, -⟩ :=
    h Unit Bytes ℕ (telling rereads) 0 lawful_telling
  have hmeta : metadataOf (telling rereads) attr = .ok [] := by
    rw [metadataOf]
    split_ifs <;> rfl
  simp only [getAttrsCached, getAttrsAnew, hmeta] at hrun hvals
  obtain ⟨vals, s, hsteps, hrun⟩ := Stateful.bind_eq_ok.1 hrun
  obtain ⟨_, s', -, hrun⟩ := Stateful.bind_eq_ok.1 hrun
  obtain ⟨hout, -⟩ := Stateful.pure_eq_ok.1 hrun
  obtain ⟨-, rfl⟩ := Prod.mk.inj hout
  rw [List.flatMap_append, List.flatMap_append] at hvals
  have hall : (allSteps known names attr).mapM (Step.run (telling rereads))
      (fun _ _ => none, 0) = .ok vals.flatten s := by
    rw [← mapM_getAttrCached]
    exact Stateful.bind_of_ok hsteps
  have hfresh := List.append_cancel_right hvals
  rw [List.flatMap_def (l := Step.allAnew ..), lawful_telling.allAnew_vals _ 0 0] at hfresh
  rw [← visits_none]
  exact isChain_of_mapM_run ⟨fun _ _ => rfl, fun _ _ hne => absurd rfl hne⟩ hall hfresh j k

end Transparency

/-- The classes of a plugin for files of two kinds of names. -/
def lbNamespace : KnownNamespace where
  nsName := ascii "urn:lb"
  plugins := [[(ascii "lb", ascii "urn:lb")]]

/-- A job has a file of the class without a name, and one with a name. -/
def lbNames (cls : Bytes) : List (Option Bytes) :=
  if cls = ascii "lb" then [none, some (ascii "1")] else []

/-- The namespace of the contents of an archive, with the class of the plugin. -/
def isbContentNamespace : KnownNamespace where
  nsName := ascii "urn:isb:content"
  plugins := [[(ascii "sandbox", ascii "urn:isb")]]

/-- A job has an archive. -/
def archiveNames (cls : Bytes) : List (Option Bytes) :=
  if cls = ascii "sandbox" then [none] else []

/-- For the second of two files of an archive, the plugin reads on behind the first. -/
theorem not_transparent_archive :
    ¬Transparent [isbContentNamespace] archiveNames (fun _ _ => false)
      [ascii "urn:isb:content:a", ascii "urn:isb:content:b"] := fun h =>
  absurd (isChain_of_transparent h 0 0) (by decide +kernel)

/-! ## Files that are opened anew -/

section Anew

/-- A result, or an error. -/
def ofResult {α : Type} (x : Option α) : Exec α := x.elim (.error (.errno Errno.EIO)) .ok

/-- A plugin by its operations, which opens its files in one state of the plugins. -/
def PluginOps.filePlugin (o : PluginOps Fhandle H W) (w : W) (namespaces : List Bytes)
    (types : List (Bytes × Bytes)) : FilePlugin (H × W) where
  namespaces := namespaces
  types := types
  «open» f uri := ofResult ((o.open f uri w).1.map (·, (o.open f uri w).2))
  attr p name := ofResult (o.attr p.1 name p.2).1

/-- The files of a job are opened as the backend says. -/
def OpensFiles (b : AttrBackend Fhandle H W) (env : Env) (s : PsState) (job : Bytes) : Prop :=
  ∀ cls name, match b.openFile cls name with
    | some f => ∃ disk,
      openFile env.config s.tables.jobs.rows s.disk job cls name O_RDONLY = .ok (disk, f)
    | none => ∃ e,
      openFile env.config s.tables.jobs.rows s.disk job cls name O_RDONLY = .error (.errno e)

variable {b : AttrBackend Fhandle H W} {env : Env} {s : PsState} {job attr cls uri : Bytes}
  {names : List (Option Bytes)} {namespaces : List Bytes} {types : List (Bytes × Bytes)}

/-- The files of a class give what they give when each is opened anew. -/
theorem processFiles_eq_anew (hopens : OpensFiles b env s job)
    (hnames : getNames s.tables job cls = .ok names) (j k : ℕ) (w : W) :
    processFiles env s job attr ((b.plugin j k).filePlugin w namespaces types) cls uri =
      .ok (names.flatMap fun name =>
        ((Step.file j k attr ⟨cls, uri, name⟩).anew b w).1.vals) := by
  have hfile : ∀ name ∈ names, ignoringErrors (do
      let opened ← openFile env.config s.tables.jobs.rows s.disk job cls name O_RDONLY
      let ph ← ((b.plugin j k).filePlugin w namespaces types).open opened.2 uri
      let myattr ← ((b.plugin j k).filePlugin w namespaces types).attr ph attr
      return myattr.map (fileValue uri name)) =
        .ok ((Step.file j k attr ⟨cls, uri, name⟩).anew b w).1.vals := by
    intro name _
    have hopen := hopens cls name
    rw [anew_vals, AttrBackend.answer]
    cases hf : b.openFile cls name with
    | none =>
      rw [hf] at hopen
      obtain ⟨e, he⟩ := hopen
      simp [FileKey.vals, he, ignoringErrors]
    | some f =>
      rw [hf] at hopen
      obtain ⟨disk, hdisk⟩ := hopen
      cases hph : ((b.plugin j k).open f uri w).1 with
      | none =>
        simp [FileKey.vals, PluginOps.filePlugin, PluginOps.ask, hdisk, hph, ofResult,
          ignoringErrors]
      | some ph =>
        cases hattr : ((b.plugin j k).attr ph attr ((b.plugin j k).open f uri w).2).1 <;>
          simp [FileKey.vals, PluginOps.filePlugin, PluginOps.ask, hdisk, hph, hattr, ofResult,
            ignoringErrors, pure, Except.pure]
  have hall := Exec.mapM_eq_ok.2 (List.forall₂_map_right_iff.2 (List.forall₂_same.2 hfile))
  rw [processFiles, hnames, Exec.ok_bind, List.flatMap_def]
  exact Exec.bind_eq_ok.2 ⟨_, hall, rfl⟩

end Anew

end JobProvenance
