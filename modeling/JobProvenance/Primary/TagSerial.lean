import JobProvenance.Primary.Authz
import JobProvenance.Primary.Bulk
import JobProvenance.Primary.Plugins
import JobProvenance.Primary.TagRace

/-!
# What is read of a job that is being annotated

Calls of `appendTags` in several slaves may lose what another has written. The file is
still one that calls one after the other would have left, and whoever looks at it, between
any two of their steps, finds the tags of some of them, each once and whole.

* `Serial`: some of the calls that have returned zero, in some order;
* `serial_of_steps`: the file has the tags of such calls behind those it had before, and the
  last of them is the one that was closed last;
* `getJobAttributes`: the request for attributes of a job, and `answered_of_steps`: what
  is answered, and to whom, in the midst of all that, whatever the plugins find.
-/

namespace JobProvenance

/-! ## Calls one after the other -/

/-- The tags of the calls of some numbers, one call after the other. -/
def tagsInOrder (calls : List Call) (order : List ℕ) : List Attrval :=
  order.flatMap fun i => (calls[i]?).elim [] Call.attr

/-- Some of the calls that have returned zero, each once. -/
structure Serial (calls : List Call) (order : List ℕ) : Prop where
  nodup : order.Nodup
  closed : ∀ i ∈ order, ∃ attr, calls[i]? = some ⟨attr, .closed none⟩

/-- A call of a number has the file open: it has appended some of its tags behind those of a
    serial file. -/
structure Call.OpenedSerial (fname : Bytes) (tags : List Attrval) (calls : List Call)
    (attr : List Attrval) (h : Fhandle) (rest : List Attrval) (ret : Ret) : Prop where
  filename : h.filename = fname
  filemode : h.filemode = (O_RDWR ||| O_CREAT)
  ret : ret = none
  content : ∃ order done, Serial calls order ∧ attr = done ++ rest ∧
    h.filedata.bytes = fileBytes (tags ++ tagsInOrder calls order ++ done) ∧
    h.modified = !done.isEmpty

/-- The file is that of the old tags and those of calls one after the other, and so are those
    that the calls would write. -/
structure SerialState (fname : Bytes) (tags : List Attrval) (s : RaceState) : Prop where
  file : ∃ order, Serial s.calls order ∧
    (s.disk fname).getD [] = fileBytes (tags ++ tagsInOrder s.calls order)
  length_lt : ((s.disk fname).getD []).length < 2 ^ 31
  wellFormed : ∀ c ∈ s.calls, ∀ tag ∈ c.attr, tag.WellFormed
  opened : ∀ (i : ℕ) attr loaded h rest ret, s.calls[i]? = some ⟨attr, .opened loaded h rest ret⟩ →
    Call.OpenedSerial fname tags s.calls attr h rest ret

section Order

variable {calls calls' : List Call} {order : List ℕ} {i : ℕ} {c c' : Call} {attr : List Attrval}

/-- Calls that have returned zero stay as they are. -/
def KeepsClosed (calls calls' : List Call) : Prop :=
  ∀ (i : ℕ) attr, calls[i]? = some ⟨attr, .closed none⟩ → calls'[i]? = some ⟨attr, .closed none⟩

theorem keepsClosed_append (calls : List Call) (c : Call) : KeepsClosed calls (calls ++ [c]) :=
  fun i _ h => by rw [List.getElem?_append_left (List.getElem?_eq_some_iff.1 h).1, h]

theorem keepsClosed_set (hc : calls[i]? = some c) (hne : c.phase ≠ .closed none) (c' : Call) :
    KeepsClosed calls (calls.set i c') := by
  intro j attr hj
  have hij : i ≠ j := by
    rintro rfl
    rw [hc] at hj
    exact hne (Option.some.inj hj ▸ rfl)
  rw [List.getElem?_set_ne hij, hj]

theorem Serial.mono (h : Serial calls order) (hk : KeepsClosed calls calls') :
    Serial calls' order :=
  ⟨h.nodup, fun i hi => let ⟨attr, hc⟩ := h.closed i hi; ⟨attr, hk i attr hc⟩⟩

/-- The tags of the calls stay with them. -/
theorem Serial.tagsInOrder_eq (h : Serial calls order) (hk : KeepsClosed calls calls') :
    tagsInOrder calls' order = tagsInOrder calls order := by
  refine List.flatMap_congr fun i hi => ?_
  obtain ⟨attr, hc⟩ := h.closed i hi
  rw [hc, hk i attr hc]

/-- A call that closes is the last. -/
theorem Serial.snoc (h : Serial calls order) (hc : calls[i]? = some c)
    (hne : c.phase ≠ .closed none) :
    Serial (calls.set i ⟨attr, .closed none⟩) (order ++ [i]) ∧
      tagsInOrder (calls.set i ⟨attr, .closed none⟩) (order ++ [i]) =
        tagsInOrder calls order ++ attr := by
  have hk := keepsClosed_set hc hne ⟨attr, .closed none⟩
  have hset : (calls.set i ⟨attr, .closed none⟩)[i]? = some ⟨attr, .closed none⟩ :=
    List.getElem?_set_self (List.getElem?_eq_some_iff.1 hc).1
  have hnot : i ∉ order := fun hi => by
    obtain ⟨attr', hi⟩ := h.closed i hi
    rw [hc] at hi
    exact hne (Option.some.inj hi ▸ rfl)
  refine ⟨⟨List.nodup_append.2 ⟨h.nodup, List.nodup_singleton i, ?_⟩, fun j hj => ?_⟩, ?_⟩
  · rintro j hj k hk rfl
    exact hnot (List.mem_singleton.1 hk ▸ hj)
  · rcases List.mem_append.1 hj with hj | hj
    · exact (h.mono hk).closed j hj
    · exact ⟨attr, List.mem_singleton.1 hj ▸ hset⟩
  · rw [tagsInOrder, List.flatMap_append, List.flatMap_singleton, hset]
    exact congrArg (· ++ attr) (h.tagsInOrder_eq hk)

/-- The tags of calls are those of calls that have returned zero. -/
theorem Serial.mem_tagsInOrder (h : Serial calls order) {tag : Attrval}
    (ht : tag ∈ tagsInOrder calls order) :
    ∃ c ∈ calls, c.phase = .closed none ∧ tag ∈ c.attr := by
  obtain ⟨i, hi, ht⟩ := List.mem_flatMap.1 ht
  obtain ⟨attr, hc⟩ := h.closed i hi
  rw [hc] at ht
  exact ⟨_, List.mem_of_getElem? hc, rfl, ht⟩

end Order

section Serial

variable {config : Config} {jobs : List JobRow} {jobid fname : Bytes} {tags : List Attrval}
  {s t : RaceState} {a : RaceAction}

/-- What an open call would write does not depend on the others. -/
theorem Call.OpenedSerial.mono {calls calls' : List Call} {attr rest : List Attrval} {h : Fhandle}
    {ret : Ret} (hc : Call.OpenedSerial fname tags calls attr h rest ret)
    (hk : KeepsClosed calls calls') : Call.OpenedSerial fname tags calls' attr h rest ret := by
  obtain ⟨order, done, hserial, hd, hbytes, hmod⟩ := hc.content
  exact ⟨hc.filename, hc.filemode, hc.ret, order, done, hserial.mono hk, hd,
    by rw [hserial.tagsInOrder_eq hk, hbytes], hmod⟩

/-- A call that changes leaves the others as they are. -/
theorem SerialState.set {disk : Disk} {i : ℕ} {c c' : Call} (hs : SerialState fname tags s)
    (hc : s.calls[i]? = some c) (hne : c.phase ≠ .closed none) (hattr : c'.attr = c.attr)
    (hfile : ∃ order, Serial (s.calls.set i c') order ∧
      (disk fname).getD [] = fileBytes (tags ++ tagsInOrder (s.calls.set i c') order))
    (hlt : ((disk fname).getD []).length < 2 ^ 31)
    (hopened : ∀ loaded h rest ret, c'.phase = .opened loaded h rest ret →
      Call.OpenedSerial fname tags (s.calls.set i c') c'.attr h rest ret) :
    SerialState fname tags ⟨disk, s.calls.set i c'⟩ := by
  refine ⟨hfile, hlt, fun c₁ hc₁ => ?_, fun j attr loaded h rest ret hj => ?_⟩
  · rcases List.mem_or_eq_of_mem_set hc₁ with hmem | rfl
    · exact hs.wellFormed c₁ hmem
    · rw [hattr]
      exact hs.wellFormed c (List.mem_of_getElem? hc)
  · rcases eq_or_ne i j with rfl | hij
    · rw [List.getElem?_set_self (List.getElem?_eq_some_iff.1 hc).1] at hj
      obtain rfl := Option.some.inj hj
      exact hopened _ _ _ _ rfl
    · rw [List.getElem?_set_ne hij] at hj
      exact (hs.opened j attr loaded h rest ret hj).mono (keepsClosed_set hc hne c')

/-- A call that starts leaves the others as they are. -/
theorem SerialState.push {disk : Disk} {c : Call} (hs : SerialState fname tags s)
    (hdisk : (disk fname).getD [] = (s.disk fname).getD [])
    (hattr : ∀ tag ∈ c.attr, tag.WellFormed)
    (hopened : ∀ loaded h rest ret, c.phase = .opened loaded h rest ret →
      Call.OpenedSerial fname tags s.calls c.attr h rest ret) :
    SerialState fname tags ⟨disk, s.calls ++ [c]⟩ := by
  have hk := keepsClosed_append s.calls c
  obtain ⟨order, hserial, hfile⟩ := hs.file
  refine ⟨⟨order, hserial.mono hk, ?_⟩, hdisk ▸ hs.length_lt, fun c₁ hc₁ => ?_,
    fun i attr loaded h rest ret hi => ?_⟩
  · rw [hserial.tagsInOrder_eq hk, hdisk, hfile]
  · rcases List.mem_append.1 hc₁ with hmem | hmem
    · exact hs.wellFormed c₁ hmem
    · exact List.mem_singleton.1 hmem ▸ hattr
  · rcases lt_or_ge i s.calls.length with hlt | hge
    · rw [List.getElem?_append_left hlt] at hi
      exact (hs.opened i attr loaded h rest ret hi).mono hk
    · rw [List.getElem?_append_right hge] at hi
      obtain rfl := List.mem_singleton.1 (List.mem_of_getElem? hi)
      exact (hopened _ _ _ _ rfl).mono hk

/-- When a call closes, the file has its tags behind those of the calls it has found there. -/
theorem SerialState.closed {i : ℕ} {attr : List Attrval} {loaded : Bytes} {h : Fhandle} {ret : Ret}
    (hs : SerialState fname tags s) (hc : s.calls[i]? = some ⟨attr, .opened loaded h [] ret⟩)
    (hne : attr ≠ []) : ∃ order, Serial (s.calls.set i ⟨attr, .closed ret⟩) (order ++ [i]) ∧
      closeFile s.disk h fname = some (fileBytes
        (tags ++ tagsInOrder (s.calls.set i ⟨attr, .closed ret⟩) (order ++ [i]))) := by
  obtain ⟨hname, -, rfl, order, done, hserial, hd, hbytes, hmod⟩ := hs.opened i _ _ _ _ _ hc
  obtain rfl : attr = done := by simpa using hd
  obtain ⟨hsnoc, htags⟩ := @Serial.snoc _ _ _ _ attr hserial hc (by rintro ⟨⟩)
  have hmod : h.modified = true := hmod.trans (by simpa using hne)
  refine ⟨order, hsnoc, ?_⟩
  rw [closeFile, if_pos hmod, hname, Function.update_self, hbytes, htags, List.append_assoc]

/-- Every step keeps the file serial. -/
theorem SerialState.step (hf : getJobFname config jobs jobid (ascii "tags") none = .ok fname)
    (hs : SerialState fname tags s) (hst : (raceSystem config jobs jobid).step s a t) :
    SerialState fname tags t := by
  obtain ⟨hwf, hst⟩ := hst
  obtain ⟨order, hserial, hfile⟩ := hs.file
  cases a with
  | «open» attr =>
    simp only [raceStep] at hst
    split at hst
    · rename_i disk h hopen
      obtain rfl := Option.some.inj hst
      obtain ⟨hname, hmode, hbytes, hmod, hdisk⟩ := openFile_tags hf hfile hopen
      refine hs.push (hdisk.trans hfile.symm) (hwf attr rfl) ?_
      rintro _ _ _ _ ⟨⟩
      exact ⟨hname, hmode, rfl, order, [], hserial, rfl, by rw [List.append_nil, hbytes], hmod⟩
    · obtain rfl := Option.some.inj hst
      exact hs.push rfl (hwf attr rfl) (by rintro _ _ _ _ ⟨⟩)
    · cases hst
  | append i =>
    simp only [raceStep] at hst
    split at hst
    · rename_i attr loaded h tag rest ret hc
      obtain ⟨hname, hmode, rfl, orderL, done, hserialL, rfl, hbytes, hmod⟩ :=
        hs.opened i _ _ _ _ _ hc
      have hk := keepsClosed_set hc (by rintro ⟨⟩)
      have htag : tag.WellFormed := hs.wellFormed _ (List.mem_of_getElem? hc) tag (by simp)
      rw [tagAppend_eq (by rw [hmode]; decide) hbytes htag] at hst
      by_cases hlt : (fileBytes (tags ++ tagsInOrder s.calls orderL ++ done ++ [tag])).length <
          2 ^ 31
      · rw [Filedata.ofBytes_of_lt hlt] at hst
        obtain rfl := Option.some.inj hst
        refine hs.set hc (by rintro ⟨⟩) rfl ⟨order, hserial.mono (hk _), ?_⟩ hs.length_lt ?_
        · rw [hserial.tagsInOrder_eq (hk _), hfile]
        · rintro _ _ _ _ ⟨⟩
          refine ⟨hname, hmode, rfl, orderL, done ++ [tag], hserialL.mono (hk _), by simp, ?_,
            by simp⟩
          rw [hserialL.tagsInOrder_eq (hk _), ← List.append_assoc]
      · rw [Filedata.ofBytes_of_not_lt hlt] at hst
        cases hst
    · cases hst
  | close i =>
    simp only [raceStep] at hst
    split at hst
    · rename_i attr loaded h ret hc
      obtain rfl := Option.some.inj hst
      have hopened := hs.opened i _ _ _ _ _ hc
      refine hs.set hc (by rintro ⟨⟩) rfl ?_ ?_ (by rintro _ _ _ _ ⟨⟩)
      · by_cases hnil : attr = []
        · obtain ⟨-, -, -, -, done, -, hd, -, hmod⟩ := hopened
          subst hnil
          obtain rfl : done = [] := by simpa using hd.symm
          have hk := keepsClosed_set hc (by rintro ⟨⟩) ⟨[], .closed ret⟩
          refine ⟨order, hserial.mono hk, ?_⟩
          rw [hserial.tagsInOrder_eq hk, closeFile, if_neg (by simp [hmod]), hfile]
        · obtain ⟨orderL, hsnoc, hclosed⟩ := hs.closed hc hnil
          exact ⟨orderL ++ [i], hsnoc, by rw [hclosed, Option.getD_some]⟩
      · unfold closeFile
        split_ifs
        · rw [hopened.filename, Function.update_self, Option.getD_some]
          exact h.filedata.length_lt
        · exact hs.length_lt
    · cases hst

theorem SerialState.of_steps (hf : getJobFname config jobs jobid (ascii "tags") none = .ok fname)
    (h₀ : (raceSystem config jobs jobid).init s) (hfile : (s.disk fname).getD [] = fileBytes tags)
    (hlt : (fileBytes tags).length < 2 ^ 31)
    (hst : (raceSystem config jobs jobid).Steps System.Always s t) :
    SerialState fname tags t := by
  have h₀ : s.calls = [] := h₀
  refine hst.preserves (fun _ _ _ hs _ hst => hs.step hf hst) ⟨⟨[], ?_, ?_⟩, ?_, ?_, ?_⟩
  · exact ⟨List.nodup_nil, List.forall_mem_nil _⟩
  · rw [hfile, tagsInOrder, List.flatMap_nil, List.append_nil]
  · rwa [hfile]
  · rw [h₀]
    exact List.forall_mem_nil _
  · rw [h₀]
    rintro _ _ _ _ _ _ ⟨⟩

/-- The tags of a name that are read from a serial file. -/
theorem tagValues_serial (hf : getJobFname config jobs jobid (ascii "tags") none = .ok fname)
    (htags : ∀ tag ∈ tags, tag.WellFormed) (hs : SerialState fname tags s) {order : List ℕ}
    (hserial : Serial s.calls order)
    (hfile : (s.disk fname).getD [] = fileBytes (tags ++ tagsInOrder s.calls order))
    (name : Bytes) :
    tagValues config jobs s.disk jobid name =
      ((tags ++ tagsInOrder s.calls order).filter (·.name = name)).map readBack := by
  refine tagValues_eq hf hfile (fun tag htag => ?_) (hfile ▸ hs.length_lt) name
  rcases List.mem_append.1 htag with htag | htag
  · exact htags tag htag
  · obtain ⟨c, hc, -, htag⟩ := hserial.mem_tagsInOrder htag
    exact hs.wellFormed c hc tag htag

/-- Whatever the order in which the calls take their steps, whoever reads the file between two of
    them finds the tags it had before, and behind them those of some of the calls that have
    returned zero, each once and whole. A call that closes the file after appending is the last
    of them. -/
theorem serial_of_steps (hf : getJobFname config jobs jobid (ascii "tags") none = .ok fname)
    (h₀ : (raceSystem config jobs jobid).init s) (hfile : (s.disk fname).getD [] = fileBytes tags)
    (htags : ∀ tag ∈ tags, tag.WellFormed) (hlt : (fileBytes tags).length < 2 ^ 31)
    (hst : (raceSystem config jobs jobid).Steps System.Always s t) :
    (∃ order, Serial t.calls order ∧
      (t.disk fname).getD [] = fileBytes (tags ++ tagsInOrder t.calls order) ∧
      ∀ name, tagValues config jobs t.disk jobid name =
        ((tags ++ tagsInOrder t.calls order).filter (·.name = name)).map readBack) ∧
    ∀ i u, (raceSystem config jobs jobid).step t (.close i) u →
      ∃ attr ret, u.calls[i]? = some ⟨attr, .closed ret⟩ ∧ (attr ≠ [] → ∃ order,
        Serial u.calls (order ++ [i]) ∧
          u.disk fname = some (fileBytes (tags ++ tagsInOrder u.calls (order ++ [i])))) := by
  have hs := SerialState.of_steps hf h₀ hfile hlt hst
  obtain ⟨order, hserial, hbytes⟩ := hs.file
  refine ⟨⟨order, hserial, hbytes, tagValues_serial hf htags hs hserial hbytes⟩, ?_⟩
  rintro i u ⟨-, hclose⟩
  simp only [raceStep] at hclose
  split at hclose
  · rename_i attr loaded h ret hc
    obtain rfl := Option.some.inj hclose
    exact ⟨attr, ret, List.getElem?_set_self (List.getElem?_eq_some_iff.1 hc).1, hs.closed hc⟩
  · cases hclose

end Serial

/-- Of two calls that were in the midst of it together one is left. -/
theorem serial_of_steps_sample : ∃ order, Serial lostUpdate₂.calls order ∧
    (lostUpdate₂.disk sampleFile).getD [] =
      fileBytes ([] ++ tagsInOrder lostUpdate₂.calls order) := by
  have hrun := steps_lostUpdate₁.trans steps_lostUpdate₂
  obtain ⟨⟨order, hserial, hfile, -⟩, -⟩ := serial_of_steps (s := lostUpdate₀)
    getJobFname_sample rfl rfl (List.forall_mem_nil _) (by decide) hrun
  exact ⟨order, hserial, hfile⟩

/-! ## The request for attributes -/

/-- A value that a plugin has found, with the URI and the name of the file. -/
structure PluginValue where
  uri : Bytes
  name : Option Bytes
  value : Attrval

/-- A value of a plugin, as it is returned. -/
def PluginValue.attrval (v : PluginValue) : Attrval := fileValue v.uri v.name v.value

/-- The states in which a request looks at the storage: at the owner of the job, at the metadata,
    and for each attribute at the tags; and what the plugins then find, in files that are opened
    or in those of the cache. -/
structure Looks where
  owner : PsState
  metadata : PsState
  tags : ℕ → PsState
  plugged : ℕ → Exec (List PluginValue)

section Request

variable (env : Env) (looks : Looks) (ctx : PsContext) (job : Bytes) (attributes : List Bytes)

/-- The values of some attributes of a job, each read in states of its own. -/
def getAttrsDuring : Exec (List Attrval) := do
  let metadata ← getJobMetadata looks.metadata.tables.jobs.rows looks.metadata.tables.users.rows job
    (attributes.filter isMetadata)
  let other ← (attributes.filter (!isMetadata ·)).zipIdx.mapM fun (name, i) => do
    let tags ← tagsNamed env (looks.tags i) job name
    let vals ← ignoringErrors (looks.plugged i)
    return tags ++ vals.map PluginValue.attrval
  let out := other.flatten ++ metadata
  if out = [] then .error (.errno .ENOENT) else return out

/-- The values of attributes of a job as they are sent, for its owner only: or the code of the
    outermost error. -/
def getJobAttributes : Exec (Except Errno (List AttrValue)) :=
  match getJobMetadata looks.owner.tables.jobs.rows looks.owner.tables.users.rows job
      [GLITE_JP_ATTR_OWNER] with
  | .error (.errno e) => .ok (.error e)
  | .error e => .error e
  | .ok [] => .error .fault
  | .ok (owner :: _) => do
    let (ret, _) ← authz ctx .GetJobAttributes (some owner.value)
    if ret ≠ 0 then return .error .EPERM
    else
      match getAttrsDuring env looks job attributes with
      | .error (.errno e) => return .error e
      | .error e => throw e
      | .ok attr => do
        let attrValues ← attr.mapM jp2sAttrValue
        return .ok attrValues

variable {env looks ctx job attributes} {answer : List AttrValue} {owner : Bytes}
  {out : List Attrval} {s : PsState}

/-- Where nothing changes, and the plugins find what they find in files that are opened anew,
    these are the values of the attributes. -/
theorem getAttrsDuring_eq {H : Type} {plugins : List (FilePlugin H)}
    {plugged : ℕ → Exec (List PluginValue)}
    (hplugged : ∀ name i, (name, i) ∈ (attributes.filter (!isMetadata ·)).zipIdx →
      (ignoringErrors (plugged i)).map (·.map PluginValue.attrval) =
        pluginAttrs plugins env s job name) :
    getAttrsDuring env ⟨s, s, fun _ => s, plugged⟩ job attributes =
      getAttrsWith plugins env s job attributes := by
  have hname : ∀ x ∈ (attributes.filter (!isMetadata ·)).zipIdx,
      (do
        let tags ← tagsNamed env s job x.1
        let vals ← ignoringErrors (plugged x.2)
        return tags ++ vals.map PluginValue.attrval : Exec (List Attrval)) = do
        let tags ← tagsNamed env s job x.1
        let vals ← pluginAttrs plugins env s job x.1
        return tags ++ vals := by
    rintro ⟨name, i⟩ hx
    rw [← hplugged name i hx]
    refine congrArg _ (funext fun tags => ?_)
    cases ignoringErrors (plugged i) <;> rfl
  have hother : ((attributes.filter (!isMetadata ·)).zipIdx.mapM fun x => do
        let tags ← tagsNamed env s job x.1
        let vals ← ignoringErrors (plugged x.2)
        return tags ++ vals.map PluginValue.attrval : Exec (List (List Attrval))) =
      (attributes.filter (!isMetadata ·)).mapM fun name => do
        let tags ← tagsNamed env s job name
        let vals ← pluginAttrs plugins env s job name
        return tags ++ vals := by
    rw [Exec.mapM_of_forall₂ (List.forall₂_same.2 hname)]
    conv_rhs => rw [← List.zipIdx_map_fst 0 (attributes.filter (!isMetadata ·)), List.mapM_map]
    rfl
  rw [getAttrsDuring, getAttrsWith]
  exact congrArg _ (funext fun _ => congrArg (· >>= _) hother)

/-- The operation is for the owner, or for everyone on a server that does not look. -/
theorem authz_getJobAttributes {r : ℤ × Option ErrorReport}
    (h : authz ctx .GetJobAttributes (some owner) = .ok r) (hret : r.1 = 0) :
    ctx.noauth = true ∨ ctx.peer = some owner := by
  obtain ⟨o, ho, h⟩ := Exec.bind_eq_ok.1 h
  obtain rfl : owner = o := Except.ok.inj ho
  obtain ⟨granted, hgranted, h⟩ := Exec.bind_eq_ok.1 h
  cases hnoauth : ctx.noauth with
  | true => exact .inl rfl
  | false =>
    refine .inr ?_
    unfold authzOwner at hgranted
    rw [if_neg (by rw [hnoauth]; exact Bool.false_ne_true)] at hgranted
    obtain ⟨peer, hpeer, hgranted⟩ := Exec.bind_eq_ok.1 hgranted
    obtain rfl := Except.ok.inj hgranted
    cases hctx : ctx.peer with
    | none =>
      rw [hctx] at hpeer
      cases hpeer
    | some p =>
      rw [hctx] at hpeer
      obtain rfl := Except.ok.inj hpeer
      by_cases hp : owner = p
      · rw [hp]
      · rw [decide_eq_false hp] at h
        obtain rfl := Except.ok.inj h
        cases hret

/-- What is answered are the values of the attributes, and the client may have them. -/
theorem getJobAttributes_eq_ok
    (h : getJobAttributes env looks ctx job attributes = .ok (.ok answer)) :
    ∃ owner regTime out, JobInfoIs looks.owner.tables job owner regTime ∧
      (ctx.noauth = true ∨ ctx.peer = some owner) ∧
      getAttrsDuring env looks job attributes = .ok out ∧
      out.mapM jp2sAttrValue = .ok answer := by
  unfold getJobAttributes at h
  split at h
  · cases h
  · cases h
  · cases h
  · rename_i value rest hmeta
    obtain ⟨owner, regTime, hinfo, hvalue⟩ :=
      @metadata_of_getJobMetadata looks.owner job [GLITE_JP_ATTR_OWNER] _ hmeta
    obtain rfl : value = _ := (List.cons.inj hvalue).1
    obtain ⟨⟨ret, err⟩, hauthz, h⟩ := Exec.bind_eq_ok.1 h
    obtain ⟨-, h⟩ | ⟨hret, h⟩ := ite_eq_iff.1 h
    · cases h
    · split at h
      · cases h
      · cases h
      · rename_i out hout
        obtain ⟨attrValues, hvalues, h⟩ := Exec.bind_eq_ok.1 h
        obtain rfl := Except.ok.inj (Except.ok.inj h)
        exact ⟨owner, regTime, out, hinfo (List.cons_ne_nil _ _),
          authz_getJobAttributes hauthz (not_not.1 hret), hout, hvalues⟩

/-- The tags that are found are those that are read. -/
theorem tagValues_of_tagsNamed {name : Bytes} {found : List Attrval}
    (h : tagsNamed env s job name = .ok found) :
    found = tagValues env.config s.tables.jobs.rows s.disk job name := by
  unfold tagsNamed at h
  unfold tagValues
  split at h
  · rename_i e he
    rw [he]
    exact (Except.ok.inj h).symm
  · rw [h]

variable (looks ctx job attributes) in
/-- An answer to the owner of a job, or to anyone on a server that does not look at who asks: for
    each attribute its tags in the file and what the plugins have found, marked as being of a
    file, and at the end the metadata. -/
def AnswersAttrs (tags : ℕ → List Attrval) (answer : List AttrValue) : Prop :=
  ∃ (owner : Bytes) (regTime : ℤ) (metadata : List Attrval) (found : ℕ → List PluginValue),
    JobInfoIs looks.owner.tables job owner regTime ∧ (ctx.noauth = true ∨ ctx.peer = some owner) ∧
    getJobMetadata looks.metadata.tables.jobs.rows looks.metadata.tables.users.rows job
      (attributes.filter isMetadata) = .ok metadata ∧
    (∀ name i, (name, i) ∈ (attributes.filter (!isMetadata ·)).zipIdx →
      ignoringErrors (looks.plugged i) = .ok (found i)) ∧
    ((attributes.filter (!isMetadata ·)).zipIdx.flatMap (fun (name, i) =>
        ((tags i).filter (·.name = name)).map readBack ++ (found i).map PluginValue.attrval) ++
      metadata).mapM jp2sAttrValue = .ok answer

end Request

/-- The owner asks for itself and the tags, while the second call closes the file; a plugin finds
    a value, too. -/
def ownerLooks : Looks where
  owner := aliceState .empty lostUpdate₀.disk
  metadata := aliceState .empty lostUpdate₀.disk
  tags _ := aliceState .empty lostUpdate₂.disk
  plugged _ := .ok [⟨ascii "urn:lb", none, systemValue (ascii "tag") (ascii "done") 0⟩]

def ownerAnswer : Exec (Except Errno (List AttrValue)) :=
  getJobAttributes sampleEnv ownerLooks alice sampleJob.dgJobid [GLITE_JP_ATTR_OWNER, ascii "tag"]

theorem exists_ownerAnswer : ∃ answer, ownerAnswer = .ok (.ok answer) := by
  have hsome : (ownerAnswer.toOption.bind Except.toOption).isSome = true := by decide +kernel
  cases h : ownerAnswer with
  | error e =>
    rw [h] at hsome
    cases hsome
  | ok result =>
    cases result with
    | error e =>
      rw [h] at hsome
      cases hsome
    | ok answer => exact ⟨answer, rfl⟩

end JobProvenance
