import JobProvenance.Lib.System
import JobProvenance.Primary.Tags

/-!
# Concurrent annotation of a job

Calls of `appendTags` on one job in several slaves of the server: each opens and
loads the file of tags, appends its tags in memory one by one, and rewrites the
file when it closes it. The steps of different calls come in any order.

* `raceStep`: one step of one call;
* `FileOf`: the file is that of the tags it held at the start and those of the
  calls closed since, in some order;
* `perm_of_closed`: when every rewriting close finds the file as its call loaded
  it, all tags of all calls are in the file in the end;
* `lost_update`: without that, a call loses the tags another one wrote since.
-/

namespace JobProvenance

/-- Where a call of `appendTags` is: with the file open it keeps the contents it
    loaded, the handle, the tags still to append and the value to return. -/
inductive Phase
  | opened (loaded : Bytes) (h : Fhandle) (rest : List Attrval) (ret : Ret)
  | closed (ret : Ret)

/-- A call of `appendTags` with its tags. -/
structure Call where
  attr : List Attrval
  phase : Phase

/-- The disk and the calls, in the order in which they started. -/
structure RaceState where
  disk : Disk
  calls : List Call

/-- A step: a new call opens the file, or the call of a number appends its next
    tag or closes the file. -/
inductive RaceAction
  | open (attr : List Attrval)
  | append (i : ℕ)
  | close (i : ℕ)

variable (config : Config) (jobs : List JobRow) (jobid : Bytes)

/-- The step of an action, if it can be taken. A call that leaves the language
    takes no step any more. -/
def raceStep (s : RaceState) : RaceAction → Option RaceState
  | .open attr =>
    match openFile config jobs s.disk jobid (ascii "tags") none (O_RDWR ||| O_CREAT) with
    | .ok (disk, h) => some ⟨disk, s.calls ++ [⟨attr, .opened h.filedata.bytes h attr none⟩]⟩
    | .error (.errno _) => some { s with calls := s.calls ++ [⟨attr, .closed (some Errno.EIO)⟩] }
    | .error _ => none
  | .append i =>
    match s.calls[i]? with
    | some ⟨attr, .opened loaded h (tag :: rest) ret⟩ =>
      match tagAppend h tag with
      | .ok h => some { s with calls := s.calls.set i ⟨attr, .opened loaded h rest ret⟩ }
      | .error (.errno _) =>
        some { s with calls := s.calls.set i ⟨attr, .opened loaded h [] (some Errno.EIO)⟩ }
      | .error _ => none
    | _ => none
  | .close i =>
    match s.calls[i]? with
    | some ⟨attr, .opened _ h [] ret⟩ =>
      some ⟨closeFile s.disk h, s.calls.set i ⟨attr, .closed ret⟩⟩
    | _ => none

/-- The calls on a job, which give it tags with well-formed values. -/
def raceSystem : System RaceState RaceAction where
  init s := s.calls = []
  step s a t := (∀ attr, a = .open attr → ∀ tag ∈ attr, tag.WellFormed) ∧
    raceStep config jobs jobid s a = some t

/-- A call that rewrites the file finds it as it loaded it. -/
def FoundAsLoaded (fname : Bytes) (s : RaceState) (a : RaceAction) : Prop :=
  ∀ i attr loaded h rest ret, a = .close i → s.calls[i]? = some ⟨attr, .opened loaded h rest ret⟩ →
    h.modified = true → (s.disk fname).getD [] = loaded

/-! ## What the file holds -/

/-- The tags of a call that are in the file: those of a call that has closed it. -/
def Call.written (c : Call) : List Attrval :=
  match c.phase with
  | .opened .. => []
  | .closed none => c.attr
  | .closed (some _) => []

/-- A call with the file open has appended some of its tags to the file it
    loaded, and would write these and nothing else. -/
def Call.Sound (fname : Bytes) (c : Call) : Prop :=
  (∀ tag ∈ c.attr, tag.WellFormed) ∧ ∀ loaded h rest ret, c.phase = .opened loaded h rest ret →
    h.filename = fname ∧ h.filemode = (O_RDWR ||| O_CREAT) ∧ ret = none ∧
    ∃ tags done, loaded = fileBytes tags ∧ c.attr = done ++ rest ∧
      h.filedata.bytes = fileBytes (tags ++ done) ∧ h.modified = !done.isEmpty

/-- The file holds the tags it held at the start and those of the calls closed
    since, in some order. -/
structure FileOf (fname : Bytes) (tags : List Attrval) (s : RaceState) : Prop where
  sound : ∀ c ∈ s.calls, c.Sound fname
  file : ∃ tags', (s.disk fname).getD [] = fileBytes tags' ∧
    tags'.Perm (tags ++ s.calls.flatMap Call.written)

variable {config jobs jobid} {fname : Bytes} {tags : List Attrval} {s t : RaceState}

/-- The tags written by the calls when one of them changes that has written
    none so far. -/
theorem flatMap_set_perm {l : List Call} {i : ℕ} {c : Call} (hc : l[i]? = some c)
    (hw : c.written = []) (c' : Call) :
    ((l.set i c').flatMap Call.written).Perm (l.flatMap Call.written ++ c'.written) := by
  obtain ⟨hi, rfl⟩ := List.getElem?_eq_some_iff.1 hc
  obtain ⟨l₁, l₂, hl, -, hset⟩ := @List.exists_of_set _ i c' l hi
  rw [hset, congrArg (List.flatMap Call.written) hl]
  simp only [List.flatMap_append, List.flatMap_cons, hw, List.nil_append]
  rw [List.append_assoc]
  exact List.perm_append_comm.append_left _

/-- A call that changes and has not written yet leaves the others sound. -/
theorem FileOf.set {i : ℕ} {c c' : Call} {disk : Disk} (hs : FileOf fname tags s)
    (hc : s.calls[i]? = some c) (hw : c.written = []) (hc' : c'.Sound fname)
    (hfile : ∃ tags', (disk fname).getD [] = fileBytes tags' ∧
      tags'.Perm (tags ++ s.calls.flatMap Call.written ++ c'.written)) :
    FileOf fname tags ⟨disk, s.calls.set i c'⟩ := by
  obtain ⟨tags', hfile, hperm⟩ := hfile
  refine ⟨fun c₁ hc₁ => ?_, tags', hfile, hperm.trans ?_⟩
  · rcases List.mem_or_eq_of_mem_set hc₁ with hmem | rfl
    · exact hs.sound c₁ hmem
    · exact hc'
  · rw [List.append_assoc]
    exact (flatMap_set_perm hc hw c').symm.append_left _

/-- Every step keeps the calls sound and the tags in the file. -/
theorem FileOf.step (hf : getJobFname config jobs jobid (ascii "tags") none = .ok fname)
    {a : RaceAction} (hs : FileOf fname tags s) (ha : FoundAsLoaded fname s a)
    (hst : (raceSystem config jobs jobid).step s a t) : FileOf fname tags t := by
  obtain ⟨hwf, hst⟩ := hst
  obtain ⟨tags', hfile, hperm⟩ := hs.file
  cases a with
  | «open» attr =>
    simp only [raceStep] at hst
    split at hst
    · rename_i disk h hopen
      obtain rfl := Option.some.inj hst
      obtain ⟨hname, hmode, hbytes, hmod, hdisk⟩ := openFile_tags hf hfile hopen
      refine ⟨fun c hc => ?_, tags', hdisk, by simpa [Call.written] using hperm⟩
      rcases List.mem_append.1 hc with hc | hc
      · exact hs.sound c hc
      · obtain rfl := List.mem_singleton.1 hc
        refine ⟨hwf attr rfl, ?_⟩
        rintro _ _ _ _ ⟨⟩
        exact ⟨hname, hmode, rfl, tags', [], hbytes, rfl, by simpa using hbytes, by simpa using hmod⟩
    · obtain rfl := Option.some.inj hst
      refine ⟨fun c hc => ?_, tags', hfile, by simpa [Call.written] using hperm⟩
      rcases List.mem_append.1 hc with hc | hc
      · exact hs.sound c hc
      · obtain rfl := List.mem_singleton.1 hc
        exact ⟨hwf attr rfl, by rintro _ _ _ _ ⟨⟩⟩
    · cases hst
  | append i =>
    simp only [raceStep] at hst
    split at hst
    · rename_i attr loaded h tag rest ret hc
      obtain ⟨hattr, hsound⟩ := hs.sound _ (List.mem_of_getElem? hc)
      obtain ⟨hname, hmode, rfl, tagsL, done, hl, hd, hbytes, hmod⟩ := hsound _ _ _ _ rfl
      have htag : tag.WellFormed := hattr tag (by simp only at hd; simp [hd])
      rw [tagAppend_eq (by rw [hmode]; decide) hbytes htag] at hst
      by_cases hlt : (fileBytes (tagsL ++ done ++ [tag])).length < 2 ^ 31
      · rw [Filedata.ofBytes_of_lt hlt] at hst
        obtain rfl := Option.some.inj hst
        refine hs.set hc rfl ⟨hattr, ?_⟩ ⟨tags', hfile, by simpa [Call.written] using hperm⟩
        rintro _ _ _ _ ⟨⟩
        exact ⟨hname, hmode, rfl, tagsL, done ++ [tag], hl, by simpa using hd,
          by rw [← List.append_assoc], by simp⟩
      · rw [Filedata.ofBytes_of_not_lt hlt] at hst
        cases hst
    · cases hst
  | close i =>
    simp only [raceStep] at hst
    split at hst
    · rename_i attr loaded h ret hc
      obtain rfl := Option.some.inj hst
      obtain ⟨hattr, hsound⟩ := hs.sound _ (List.mem_of_getElem? hc)
      obtain ⟨hname, hmode, rfl, tagsL, done, hl, hd, hbytes, hmod⟩ := hsound _ _ _ _ rfl
      obtain rfl : attr = done := by simpa using hd
      refine hs.set hc rfl ⟨hattr, by rintro _ _ _ _ ⟨⟩⟩ ⟨tags' ++ attr, ?_, ?_⟩
      · cases hm : h.modified with
        | false =>
          obtain rfl : attr = [] := by simpa [hm] using hmod
          simpa [closeFile, hm] using hfile
        | true =>
          -- the file is still the one the call has loaded
          have hload := ha i attr loaded h [] none rfl hc hm
          rw [closeFile, if_pos hm, hname, Function.update_self, Option.getD_some, hbytes]
          exact fileBytes_append_congr (hl.symm.trans (hload.symm.trans hfile)) attr
      · exact hperm.append_right _
    · cases hst

/-- In a run in which every rewriting close finds the file as its call loaded
    it, the tags of the calls that are closed are in the file. -/
theorem FileOf.run (hf : getJobFname config jobs jobid (ascii "tags") none = .ok fname)
    (hs : FileOf fname tags s)
    (hst : (raceSystem config jobs jobid).Steps (FoundAsLoaded fname) s t) : FileOf fname tags t :=
  hst.preserves (fun _ _ _ hs ha hst => hs.step hf ha hst) hs

/-- When every rewriting close finds the file as its call loaded it and all
    calls have returned zero, the file holds the tags it held before and every
    tag of every call, in some order. -/
theorem perm_of_closed (hf : getJobFname config jobs jobid (ascii "tags") none = .ok fname)
    (h₀ : (raceSystem config jobs jobid).init s) (hfile : (s.disk fname).getD [] = fileBytes tags)
    (hst : (raceSystem config jobs jobid).Steps (FoundAsLoaded fname) s t)
    (hdone : ∀ c ∈ t.calls, c.phase = .closed none) :
    ∃ tags', (t.disk fname).getD [] = fileBytes tags' ∧
      tags'.Perm (tags ++ t.calls.flatMap Call.attr) := by
  have hinit : FileOf fname tags s := by
    have h₀ : s.calls = [] := h₀
    exact ⟨by simp [h₀], tags, hfile, by simp [h₀]⟩
  obtain ⟨tags', hfile', hperm⟩ := (hinit.run hf hst).file
  refine ⟨tags', hfile', hperm.trans ?_⟩
  have hwritten : t.calls.flatMap Call.written = t.calls.flatMap Call.attr :=
    List.flatMap_congr fun c hc => by rw [Call.written, hdone c hc]
  rw [hwritten]

/-! ## Calls one after the other -/

/-- A call that is not interrupted puts its tag behind those of the file, and finds the
    file as it loaded it. -/
theorem steps_call (hf : getJobFname config jobs jobid (ascii "tags") none = .ok fname)
    (hfile : (s.disk fname).getD [] = fileBytes tags) {tag : Attrval} (htag : tag.WellFormed)
    (hlt : (fileBytes (tags ++ [tag])).length < 2 ^ 31) :
    ∃ t, (raceSystem config jobs jobid).Steps (FoundAsLoaded fname) s t ∧
      t.calls = s.calls ++ [⟨[tag], .closed none⟩] ∧
      (t.disk fname).getD [] = fileBytes (tags ++ [tag]) := by
  have hlt₀ : (fileBytes tags).length < 2 ^ 31 :=
    lt_of_le_of_lt (length_fileBytes_le tags [tag]) hlt
  obtain ⟨disk₁, h, hopen⟩ := openFile_tags_ok hf hfile hlt₀
  obtain ⟨hname, hmode, hbytes, -, hdisk⟩ := openFile_tags hf hfile hopen
  set n := s.calls.length with hn
  have hlast : ∀ c, (s.calls ++ [c])[n]? = some c := fun c => List.getElem?_concat_length
  have hset : ∀ c c', (s.calls ++ [c]).set n c' = s.calls ++ [c'] := fun c c' => by
    rw [List.set_append_right _ _ le_rfl, Nat.sub_self, List.set_cons_zero]
  have hfound : ∀ {s a}, (∀ i, a ≠ RaceAction.close i) → FoundAsLoaded fname s a :=
    fun ha i _ _ _ _ _ h => absurd h (ha i)
  -- the call opens the file, appends its tag and closes the file
  set h' : Fhandle := { h with filedata := ⟨_, hlt⟩, modified := true } with hh'
  have happend : tagAppend h tag = .ok h' := by
    have hm : h.filemode % 4 ≠ 0 := by
      rw [hmode]
      decide
    rw [tagAppend_eq hm hbytes htag, Filedata.ofBytes_of_lt hlt]
    rfl
  have h₁ : (raceSystem config jobs jobid).step s (.open [tag])
      ⟨disk₁, s.calls ++ [⟨[tag], .opened h.filedata.bytes h [tag] none⟩]⟩ := by
    refine ⟨fun attr ha => ?_, by simp only [raceStep, hopen]⟩
    obtain rfl := RaceAction.open.inj ha
    exact List.forall_mem_singleton.2 htag
  have h₂ : (raceSystem config jobs jobid).step
      ⟨disk₁, s.calls ++ [⟨[tag], .opened h.filedata.bytes h [tag] none⟩]⟩ (.append n)
      ⟨disk₁, s.calls ++ [⟨[tag], .opened h.filedata.bytes h' [] none⟩]⟩ :=
    ⟨fun _ ha => (by cases ha), by simp only [raceStep, hlast, happend, hset]⟩
  have h₃ : (raceSystem config jobs jobid).step
      ⟨disk₁, s.calls ++ [⟨[tag], .opened h.filedata.bytes h' [] none⟩]⟩ (.close n)
      ⟨closeFile disk₁ h', s.calls ++ [⟨[tag], .closed none⟩]⟩ :=
    ⟨fun _ ha => (by cases ha), by simp only [raceStep, hlast, hset]⟩
  refine ⟨_, (((System.Steps.refl s).tail (hfound fun _ ha => (by cases ha)) h₁).tail
    (hfound fun _ ha => (by cases ha)) h₂).tail ?_ h₃, rfl, ?_⟩
  · intro i attr loaded h₀ rest ret ha hcall _
    obtain rfl := RaceAction.close.inj ha
    rw [hlast] at hcall
    obtain ⟨rfl, -⟩ := Phase.opened.inj (Call.mk.inj (Option.some.inj hcall)).2
    exact hdisk.trans hbytes.symm
  · have hname' : h'.filename = fname := hname
    have hclosed : closeFile disk₁ h' fname = some (fileBytes (tags ++ [tag])) := by
      rw [closeFile, if_pos rfl, hname', Function.update_self]
    exact congrArg (Option.getD · []) hclosed

/-! ## A lost update -/

/-- The file of the tags of the sample job. -/
def sampleFile : Bytes := ascii "/jp/data/0123/0/abcdefghij/tags"

theorem getJobFname_sample :
    getJobFname sampleConfig [sampleJob] sampleJob.dgJobid (ascii "tags") none = .ok sampleFile :=
  rfl

/-- The handle of the file of the sample job, with the tags its call appended. -/
def sampleHandle (tags : List Attrval) (hlt : (fileBytes tags).length < 2 ^ 31) : Fhandle where
  filename := sampleFile
  filemode := O_RDWR ||| O_CREAT
  filedata := ⟨fileBytes tags, hlt⟩
  modified := !tags.isEmpty

/-- A string tag of one letter. -/
def letterTag (letter : Char) : Attrval := sampleTag false [ch letter]

theorem letterTag_wellFormed {letter : Char} (hl : 0 ≠ ch letter) :
    (letterTag letter).WellFormed := sampleTag_wellFormed (by simpa using hl)

theorem tagAppend_sampleHandle {letter : Char} (hl : 0 ≠ ch letter)
    (hlt : (fileBytes [letterTag letter]).length < 2 ^ 31) :
    tagAppend (sampleHandle [] (by decide)) (letterTag letter) =
      .ok (sampleHandle [letterTag letter] hlt) := by
  have hd : (sampleHandle [] (by decide)).filedata.bytes = fileBytes [] := rfl
  have hm : (sampleHandle [] (by decide)).filemode % 4 ≠ 0 := by decide
  rw [tagAppend_eq hm hd (letterTag_wellFormed hl), List.nil_append, Filedata.ofBytes_of_lt hlt]
  rfl

/-- The sample job, before the first tag, while two calls have the file open,
    and after both are closed. -/
def lostUpdate₀ : RaceState := ⟨fun _ => none, []⟩

def lostUpdate₁ : RaceState where
  disk := Function.update (fun _ => none) sampleFile (some [])
  calls := [⟨[letterTag 'a'], .opened [] (sampleHandle [] (by decide)) [letterTag 'a'] none⟩,
    ⟨[letterTag 'b'], .opened [] (sampleHandle [] (by decide)) [letterTag 'b'] none⟩]

def lostUpdate₂ : RaceState where
  disk := Function.update (Function.update (Function.update (fun _ => none) sampleFile (some []))
    sampleFile (some (fileBytes [letterTag 'a']))) sampleFile (some (fileBytes [letterTag 'b']))
  calls := [⟨[letterTag 'a'], .closed none⟩, ⟨[letterTag 'b'], .closed none⟩]

theorem raceStep_open {letter : Char} {s t : RaceState} (hl : 0 ≠ ch letter)
    (h : raceStep sampleConfig [sampleJob] sampleJob.dgJobid s (.open [letterTag letter]) = some t) :
    (raceSystem sampleConfig [sampleJob] sampleJob.dgJobid).step s (.open [letterTag letter]) t := by
  refine ⟨?_, h⟩
  rintro attr ⟨⟩
  rw [List.forall_mem_singleton]
  exact letterTag_wellFormed hl

theorem raceStep_append {letter : Char} {s : RaceState} {i : ℕ} (hl : 0 ≠ ch letter)
    (hlt : (fileBytes [letterTag letter]).length < 2 ^ 31)
    (hs : s.calls[i]? = some ⟨[letterTag letter],
      .opened [] (sampleHandle [] (by decide)) [letterTag letter] none⟩) :
    (raceSystem sampleConfig [sampleJob] sampleJob.dgJobid).step s (.append i)
      { s with calls := s.calls.set i ⟨[letterTag letter],
        .opened [] (sampleHandle [letterTag letter] hlt) [] none⟩ } := by
  refine ⟨by rintro _ ⟨⟩, ?_⟩
  simp only [raceStep, hs, tagAppend_sampleHandle hl hlt]

theorem raceStep_close {s t : RaceState} {i : ℕ} {attr : List Attrval} {loaded : Bytes} {h : Fhandle}
    (hs : s.calls[i]? = some ⟨attr, .opened loaded h [] none⟩)
    (ht : ⟨closeFile s.disk h, s.calls.set i ⟨attr, .closed none⟩⟩ = t) :
    (raceSystem sampleConfig [sampleJob] sampleJob.dgJobid).step s (.close i) t := by
  refine ⟨by rintro _ ⟨⟩, ?_⟩
  simp only [raceStep, hs, ht]

/-- The first call opens the missing file. -/
theorem raceStep_first : (raceSystem sampleConfig [sampleJob] sampleJob.dgJobid).step lostUpdate₀
    (.open [letterTag 'a']) { lostUpdate₁ with calls := lostUpdate₁.calls.take 1 } := by
  refine raceStep_open (by decide) ?_
  simp only [raceStep, lostUpdate₀, openFile_create getJobFname_sample]
  rfl

/-- Two calls one after the other: both tags are in the file. -/
theorem perm_of_closed_sample : ∃ t tags',
    (raceSystem sampleConfig [sampleJob] sampleJob.dgJobid).Steps (FoundAsLoaded sampleFile)
      lostUpdate₀ t ∧
    t.calls = [⟨[letterTag 'a'], .closed none⟩, ⟨[letterTag 'b'], .closed none⟩] ∧
    (t.disk sampleFile).getD [] = fileBytes tags' ∧
    tags'.Perm [letterTag 'a', letterTag 'b'] := by
  obtain ⟨s, hs, hcalls, hfile⟩ := @steps_call _ _ _ _ [] lostUpdate₀ getJobFname_sample rfl _
    (@letterTag_wellFormed 'a' (by decide)) (by decide)
  obtain ⟨t, ht, hcalls', -⟩ := steps_call getJobFname_sample hfile
    (@letterTag_wellFormed 'b' (by decide)) (by decide)
  rw [hcalls] at hcalls'
  obtain ⟨tags', hfile', hperm⟩ := @perm_of_closed _ _ _ _ [] lostUpdate₀ t getJobFname_sample
    rfl rfl (hs.trans ht) fun c hc => by
      rw [hcalls'] at hc
      rcases List.mem_cons.1 hc with rfl | hc
      · rfl
      · rw [List.mem_singleton.1 hc]
  refine ⟨t, tags', hs.trans ht, hcalls', hfile', ?_⟩
  rw [hcalls'] at hperm
  exact hperm

theorem steps_lostUpdate₁ : (raceSystem sampleConfig [sampleJob] sampleJob.dgJobid).Steps
    System.Always lostUpdate₀ lostUpdate₁ := by
  have hopen : openFile sampleConfig [sampleJob]
      (Function.update (fun _ => none) sampleFile (some [])) sampleJob.dgJobid (ascii "tags") none
      (O_RDWR ||| O_CREAT) = .ok (Function.update (fun _ => none) sampleFile (some []),
        sampleHandle [] (by decide)) :=
    (openFile_some getJobFname_sample (Function.update_self ..) (by decide)).2 ⟨.empty, rfl, rfl⟩
  have h₂ : raceStep sampleConfig [sampleJob] sampleJob.dgJobid
      { lostUpdate₁ with calls := lostUpdate₁.calls.take 1 } (.open [letterTag 'b']) =
        some lostUpdate₁ := by
    simp only [raceStep, lostUpdate₁, hopen]
    rfl
  exact ((System.Steps.refl _).tail trivial raceStep_first).tail trivial
    (raceStep_open (by decide) h₂)

theorem steps_lostUpdate₂ : (raceSystem sampleConfig [sampleJob] sampleJob.dgJobid).Steps
    System.Always lostUpdate₁ lostUpdate₂ := by
  have ha := @raceStep_append 'a' lostUpdate₁ 0 (by decide) (by decide) rfl
  have hb := @raceStep_append 'b' { lostUpdate₁ with
    calls := lostUpdate₁.calls.set 0 ⟨[letterTag 'a'],
      .opened [] (sampleHandle [letterTag 'a'] (by decide)) [] none⟩ } 1 (by decide) (by decide) rfl
  exact ((((System.Steps.refl _).tail trivial ha).tail trivial hb).tail trivial
    (raceStep_close (i := 0) rfl rfl)).tail trivial
      (@raceStep_close _ lostUpdate₂ 1 _ _ _ rfl rfl)

/-- Two calls load the empty file, append a tag each, and close it one after the
    other: both return zero, and the tag of the first is lost. -/
theorem lost_update : (raceSystem sampleConfig [sampleJob] sampleJob.dgJobid).init lostUpdate₀ ∧
    (lostUpdate₀.disk sampleFile).getD [] = fileBytes [] ∧
    (raceSystem sampleConfig [sampleJob] sampleJob.dgJobid).Steps System.Always
      lostUpdate₀ lostUpdate₂ ∧
    (∀ c ∈ lostUpdate₂.calls, c.phase = .closed none) ∧
    ¬∃ tags, (lostUpdate₂.disk sampleFile).getD [] = fileBytes tags ∧
      tags.Perm ([] ++ lostUpdate₂.calls.flatMap Call.attr) := by
  refine ⟨rfl, rfl, steps_lostUpdate₁.trans steps_lostUpdate₂, ?_, ?_⟩
  · simp [lostUpdate₂]
  · rintro ⟨tags, hfile, hperm⟩
    have hlen : (tags.flatMap record).length =
        ([letterTag 'a', letterTag 'b'].flatMap record).length :=
      (hperm.flatMap_right record).length_eq
    have hne : tags ≠ [] := List.length_pos_iff.1 (hperm.length_eq ▸ by decide)
    have hfile : fileBytes [letterTag 'b'] = TAGS_MAGIC ++ tags.flatMap record := by
      simpa [lostUpdate₂, fileBytes_of_ne_nil hne] using hfile
    have hfile := congrArg List.length hfile
    rw [List.length_append, hlen] at hfile
    exact absurd hfile (by decide)

end JobProvenance
