import JobProvenance.Feed.Condition
import JobProvenance.Index.Update

/-!
# What is answered

`QueryJobs` returns, for each job its conditions select, the values of the attributes it
asks for and the owner of the job; the values are read back from their full texts in the
tables of the attributes. A full text was written by the type plugin of its attribute.
It is read into a value that has no name, so that its plugin is not found again: the
fallback plugin reads it when no plugins are loaded, otherwise the server stops.

* `indexQueryJobs`: the operation;
* `decodesItsOwn_iff`: when a value is read back by the plugin that has written it.
-/

namespace JobProvenance

/-! ## The answer -/

section Answer

variable (ctx : IndexContext) (fromDb : TplugData → Option (Bytes → Exec Attrval)) (db : IndexDb)

/-- The plugin of an attribute, whose name may be missing; `none` is the fallback plugin. -/
def getPluginCall (plugins : List TplugData) (aname : Option Bytes) : Exec (Option TplugData) :=
  match plugins with
  | [] => .ok none
  | _ :: _ => do
    let name ← Exec.deref aname
    return getPlugin plugins name

/-- The conversion of a plugin to full texts. -/
def toDbFullBy (p : Option TplugData) : Attrval → Exec (Option Bytes) :=
  (p.bind TplugData.toDbFull).getD (fbToDbFull ctx.b64)

/-- The conversion of a plugin from full texts, which `fromDb` are for those that have one. -/
def fromDbBy (p : Option TplugData) : Bytes → Exec Attrval :=
  (p.bind fromDb).getD fun str => fbFromDb ctx.b64 str
    { name := [], value := [], binary := false, size := 0, origin := .any, originDetail := none,
      timestamp := 0 }

/-- The value of a full text, by the plugin of a name. -/
def attrvalFromDb (aname : Option Bytes) (str : Bytes) : Exec Attrval := do
  let ap ← getPluginCall ctx.plugins aname
  fromDbBy ctx fromDb ap str

/-- A value as it is returned. -/
def attrvalToSoap (attrName : Bytes) (jav : Attrval) : Exec AttrValue := do
  let value ←
    if jav.binary then
      if jav.size ≤ jav.value.length then pure (StringOrBlob.blob (jav.value.take jav.size))
      else throw .fault
    else pure (StringOrBlob.string (cstr jav.value))
  let origin ← Exec.deref (attrOrigToSoap jav.origin)
  return { name := attrName, value := some value, timestamp := jav.timestamp, origin := origin,
           originDetail := jav.originDetail }

/-- A function that returns 1 when something in it fails. -/
def failsWithOne {α : Type} : Exec α → Exec α
  | .error (.errno _) => .error (.errno .EPERM)
  | result => result

/-- The name in the value a full text is read into: it has none. -/
def javName : Option Bytes := none

/-- The rows of an attribute of a job. -/
def attrRows (jobid attrName : Bytes) : List AttrRow :=
  (db.values (attr2id ctx.md5 attrName)).filter fun row => row.jobid = ctx.md5 jobid

/-- The values of an attribute of a job. -/
def getAttr (jobid attrName : Bytes) : Exec (List AttrValue) :=
  failsWithOne <| (attrRows ctx db jobid attrName).mapM fun row => do
    let jav ← attrvalFromDb ctx fromDb javName row.fullValue
    attrvalToSoap attrName jav

/-- The owner of a job; that there are two of the job or of the owner stops the server. -/
def getOwner (jobid : Bytes) : Exec Bytes :=
  match db.jobs.rows.filter fun job => job.jobid = ctx.md5 jobid with
  | [] => .error (.errno .EPERM)
  | [job] =>
    match db.users.rows.filter fun user => user.userid = job.ownerid with
    | [] => .error (.errno .EPERM)
    | [user] => .ok user.certSubj
    | _ => .error .fault
  | _ => .error .fault

/-- The record of a job. -/
def getAttrsOf (req : QueryJobs) (jobid : Bytes) : Exec JobRecord := do
  let attributes ← req.attributes.mapM fun attr => Exec.deref attr >>= getAttr ctx fromDb db jobid
  let owner ← getOwner ctx db jobid
  return { jobid := some jobid, owner := some owner, attributes := attributes.flatten,
           remove := none }

/-- The operation: the records of the jobs, each with its primary storage. -/
def indexQueryJobs (req : QueryJobs) : Exec (List (JobRecord × Bytes)) := do
  if checkIndexedConditions db req then throw (.errno .EINVAL)
  if checkConditions ctx.conf req then throw (.errno .EINVAL)
  let jobids ← getJobids ctx db req.conditions
  jobids.mapM fun job => do return (← getAttrsOf ctx fromDb db req job.1, job.2)

end Answer

/-! ## The plugin of a value -/

section Decoding

variable (ctx : IndexContext) (fromDb : TplugData → Option (Bytes → Exec Attrval))

/-- A row that was inserted for a value of an attribute. -/
def InsertedFor (jobid attrName : Bytes) (av : Attrval) (row : AttrRow) : Prop :=
  av.name = attrName ∧ ∃ value, attrvalRow ctx jobid av = .ok (row, value)

/-- The conversions of a plugin invert each other on a value, as it is returned. -/
def Inverts (p : Option TplugData) (attrName : Bytes) (av : Attrval) : Prop :=
  ∃ full jav, toDbFullBy ctx p av = .ok (some full) ∧ fromDbBy ctx fromDb p full = .ok jav ∧
    attrvalToSoap attrName jav = attrvalToSoap attrName av

/-- The values of an attribute are read by the plugin that has written them; and when its
    conversions invert each other, the values are returned that were stored. -/
structure DecodesItsOwn (attrName : Bytes) : Prop where
  samePlugin : getPluginCall ctx.plugins javName = .ok (getPlugin ctx.plugins attrName)
  readsBack : ∀ db jobid avs vs,
    List.Forall₂ (InsertedFor ctx jobid attrName) avs (attrRows ctx db jobid attrName) →
    (∀ av ∈ avs, Inverts ctx fromDb (getPlugin ctx.plugins attrName) attrName av) →
    avs.mapM (attrvalToSoap attrName) = .ok vs → getAttr ctx fromDb db jobid attrName = .ok vs

variable {ctx fromDb} {attrName jobid : Bytes} {av : Attrval} {row : AttrRow}

/-- A value is read back by the plugin that has written it. -/
theorem attrvalFromDb_of_inserted (hplugin : getPluginCall ctx.plugins javName =
    .ok (getPlugin ctx.plugins attrName)) (hrow : InsertedFor ctx jobid attrName av row)
    (h : Inverts ctx fromDb (getPlugin ctx.plugins attrName) attrName av) :
    (attrvalFromDb ctx fromDb javName row.fullValue >>= attrvalToSoap attrName) =
      attrvalToSoap attrName av := by
  obtain ⟨rfl, value, hrow⟩ := hrow
  obtain ⟨full, jav, hfull, hjav, hsoap⟩ := h
  obtain ⟨full', hfull', hrow⟩ := Exec.bind_eq_ok.1 hrow
  have hsome : full' = some full := Except.ok.inj (hfull'.symm.trans hfull)
  have htext : row.fullValue = full :=
    (congrArg (AttrRow.fullValue ∘ Prod.fst) (Except.ok.inj hrow)).symm.trans (by rw [hsome]; rfl)
  rw [attrvalFromDb, hplugin, Exec.ok_bind, htext, hjav, Exec.ok_bind, hsoap]

/-- A value is read by the plugin that has written it when no plugins are loaded; when there are
    some, the server stops. -/
theorem decodesItsOwn_iff (ctx : IndexContext) (fromDb : TplugData → Option (Bytes → Exec Attrval))
    (attrName : Bytes) : DecodesItsOwn ctx fromDb attrName ↔ ctx.plugins = [] := by
  constructor
  · intro h
    cases hplugins : ctx.plugins with
    | nil => rfl
    | cons p ps =>
      have hsame := h.samePlugin
      rw [hplugins] at hsame
      cases hsame
  · intro hplugins
    have hsame : getPluginCall ctx.plugins javName = .ok (getPlugin ctx.plugins attrName) := by
      rw [hplugins]
      rfl
    refine ⟨hsame, fun db jobid avs vs hrows hinverts hvs => ?_⟩
    have hread := List.Forall₂.imp (fun av row h => attrvalFromDb_of_inserted hsame h.2 h.1)
      ((List.forall₂_and_left _ _).2 ⟨hinverts, hrows⟩)
    have hrows' := Exec.mapM_of_forall₂ (hread.imp fun _ _ => Eq.symm)
    rw [getAttr, ← hrows', hvs]
    rfl

end Decoding

/-- A plugin that stores its values like the fallback plugin. -/
def samplePlugin : TplugData := ⟨ascii "urn:app", none, none, none⟩

/-- A server with the plugin stops when it returns a value of an attribute, of the plugin or not. -/
theorem not_decodesItsOwn_plugin :
    ¬DecodesItsOwn { sampleServer false with plugins := [samplePlugin] } (fun _ => none)
        (ascii "urn:app:color") ∧
      getAttr { sampleServer false with plugins := [samplePlugin] } (fun _ => none)
        { sampleIndexDb with
          values := fun _ => [⟨sampleMd5 (ascii "https://lb/job"), [], ascii "S:0:U::red", 2⟩] }
        (ascii "https://lb/job") (ascii "urn:app:color") = .error .fault := by
  constructor
  · intro h
    cases h.samePlugin
  · rw [getAttr, attrRows, List.filter_cons_of_pos (by exact decide_eq_true rfl)]
    rfl

end JobProvenance
