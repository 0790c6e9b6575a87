import JobProvenance.Lib.System
import JobProvenance.Primary.SandboxContract

/-!
# Handles of the sandbox plugin

A process in which handles are opened and closed, any number of them at a time, and
values are read by them. There is one file and one offset for all: what a handle reads
depends on which handle was opened last, and on what was read since.

* `sandboxAnswer_eq`: what an attribute is answered when the global data are as opening
  the handle has left them;
* `answers_fresh`: in a run in which an archive is read by a handle only as long as it is
  the one opened last, and nothing was read since, all answers are those of a fresh handle.
-/

namespace JobProvenance

/-- A process with handles: the data for reading, once a handle was opened, and the files of
    the open handles. -/
structure SandboxProcess where
  global : Option GlobalData
  handles : ℕ → Option Fhandle

/-- A call of the plugin; an uninitialised buffer has some bytes in it. -/
inductive SandboxCall
  | «open» (i : ℕ) (bhandle : Fhandle)
  | attr (i : ℕ) (attr stack : Bytes)
  | close (i : ℕ)

/-- What a call returns for an attribute, unless it ends the process. -/
abbrev SandboxAnswer := Exec (Ret × Option (Block (Option Attrval)))

section Process

variable (L : Libtar)

/-- What a call answers with the global data as they are. -/
def sandboxAnswer (attr stack : Bytes) (g : GlobalData) : SandboxAnswer := do
  let (ret, attrval, _) ← sandboxAttr L stack attr g
  return (ret, attrval)

/-- One call. When it ends the process, there is a new one without handles. -/
def SandboxProcess.step (s : SandboxProcess) : SandboxCall → Option SandboxProcess
  | .open i bhandle =>
    if s.handles i = none then
      some ⟨some (.opened bhandle), Function.update s.handles i (some bhandle)⟩
    else none
  | .attr i attr stack => do
    let _ ← s.handles i
    let g ← s.global
    match sandboxAttr L stack attr g with
    | .ok (_, _, g) => return { s with global := some g }
    | .error _ => return ⟨none, fun _ => none⟩
  | .close i => do
    let _ ← s.handles i
    return { s with handles := Function.update s.handles i none }

/-- A call for an attribute that was answered: the file of the handle, what was asked for, and
    the answer. -/
structure SandboxAnswered where
  bhandle : Fhandle
  attr : Bytes
  stack : Bytes
  answer : SandboxAnswer

/-- What is known of a run: the calls and the answers, the last ones first. -/
structure SandboxRecord where
  calls : List SandboxCall
  answers : List SandboxAnswered

/-- The answer of a call. -/
def SandboxProcess.answered (s : SandboxProcess) : SandboxCall → Option SandboxAnswered
  | .attr i attr stack => do
    let bhandle ← s.handles i
    let g ← s.global
    return ⟨bhandle, attr, stack, sandboxAnswer L attr stack g⟩
  | .open _ _ | .close _ => none

/-- The record after a call. -/
def SandboxRecord.next (s : SandboxProcess) (a : SandboxCall) (_ : SandboxProcess)
    (r : SandboxRecord) : SandboxRecord :=
  ⟨a :: r.calls, (s.answered L a).toList ++ r.answers⟩

/-- The process, whose calls are recorded. -/
def sandboxSystem : System (SandboxProcess × SandboxRecord) SandboxCall :=
  System.recorded ⟨fun s => s = ⟨none, fun _ => none⟩, fun s a t => s.step L a = some t⟩
    ⟨[], []⟩ (SandboxRecord.next L)

/-- An answer is that of a handle that is opened anew, when nothing else is open. -/
def SandboxAnswered.Fresh (a : SandboxAnswered) : Prop :=
  a.answer = sandboxAnswer L a.attr a.stack (.opened a.bhandle)

/-- The attributes for which the archive is read. -/
def ReadsArchive (attr : Bytes) : Prop :=
  sandboxBranch attr = .isbFilename ∨ sandboxBranch attr = .isbContent

/-- The handle opened last is one of a file, and nothing was read since. -/
def Unread (bhandle : Fhandle) : List SandboxCall → Prop
  | [] => False
  | .open _ bhandle' :: _ => bhandle' = bhandle
  | .attr _ attr _ :: calls => ¬ReadsArchive attr ∧ Unread bhandle calls
  | .close _ :: calls => Unread bhandle calls

/-- An archive is read by a handle only as long as the handle opened last is one of its file,
    and nothing was read since. -/
def ReadsFresh (s : SandboxProcess × SandboxRecord) : SandboxCall → Prop
  | .attr i attr _ => ReadsArchive attr → ∀ bhandle ∈ s.1.handles i, Unread bhandle s.2.calls
  | .open _ _ | .close _ => True

variable {L} {attr stack : Bytes} {g : GlobalData}

/-- Of the other attributes, nothing is found, and nothing is read. -/
theorem sandboxAttr_of_not_reads (h : ¬ReadsArchive attr) :
    sandboxAttr L stack attr g = .ok (none, none, g) := by
  obtain ⟨hname, hcontent⟩ := not_or.1 h
  rw [sandboxAttr]
  cases hbranch : sandboxBranch attr with
  | isbFilename => exact absurd hbranch hname
  | isbContent => exact absurd hbranch hcontent
  | osbFilename | osbContent | other => rfl

/-- The global data are those of the handle opened last, as long as nothing is read. -/
def GlobalUnread (s : SandboxProcess × SandboxRecord) : Prop :=
  ∀ bhandle, Unread bhandle s.2.calls → s.1.global = some (.opened bhandle)

variable {s t : SandboxProcess × SandboxRecord} {a : SandboxCall} {bhandle : Fhandle}

/-- A call keeps the global data as they are, unless it opens a handle or reads. -/
theorem globalUnread_step (hs : GlobalUnread s) (h : (sandboxSystem L).step s a t) :
    GlobalUnread t := by
  obtain ⟨hstep, hrecord⟩ := h
  intro bhandle hunread
  rw [hrecord] at hunread
  cases a with
  | «open» i bhandle' =>
    obtain rfl : bhandle' = bhandle := hunread
    simp only [SandboxProcess.step] at hstep
    split_ifs at hstep
    exact (Option.some.inj hstep) ▸ rfl
  | attr i attr stack =>
    obtain ⟨hreads, hunread⟩ := hunread
    simp only [SandboxProcess.step, Option.bind_eq_bind, Option.bind_eq_some_iff] at hstep
    obtain ⟨_, -, g, hg, hstep⟩ := hstep
    rw [sandboxAttr_of_not_reads hreads] at hstep
    rw [← Option.some.inj hstep]
    exact hg ▸ hs bhandle hunread
  | close i =>
    simp only [SandboxProcess.step, Option.bind_eq_bind, Option.bind_eq_some_iff] at hstep
    obtain ⟨_, -, hstep⟩ := hstep
    exact (Option.some.inj hstep) ▸ hs bhandle hunread

/-- An attribute is answered as by a fresh handle, when its archive is not read, or is to be read
    from its start. -/
theorem sandboxAnswer_eq (h : ReadsArchive attr → g = .opened bhandle) :
    sandboxAnswer L attr stack g = sandboxAnswer L attr stack (.opened bhandle) := by
  by_cases hreads : ReadsArchive attr
  · rw [h hreads]
  · rw [sandboxAnswer, sandboxAnswer, sandboxAttr_of_not_reads hreads, sandboxAttr_of_not_reads hreads]
    rfl

/-- A call is answered as by a fresh handle. -/
theorem fresh_answered {b : SandboxAnswered} (hs : GlobalUnread s) (hok : ReadsFresh s a)
    (hb : s.1.answered L a = some b) : b.Fresh L := by
  cases a with
  | attr i attr stack =>
    simp only [SandboxProcess.answered, Option.bind_eq_bind, Option.bind_eq_some_iff] at hb
    obtain ⟨bhandle, hi, g, hg, hb⟩ := hb
    rw [← Option.some.inj hb]
    refine sandboxAnswer_eq fun hreads => ?_
    exact Option.some.inj (hg.symm.trans (hs bhandle (hok hreads bhandle hi)))
  | «open» | close => cases hb

/-- In a run in which an archive is read by a handle only as long as the handle opened last is one
    of its file, and nothing was read since, all answers are those of fresh handles. -/
theorem answers_fresh (h : (sandboxSystem L).Reachable ReadsFresh s) :
    ∀ b ∈ s.2.answers, b.Fresh L := by
  suffices hinv : GlobalUnread s ∧ ∀ b ∈ s.2.answers, b.Fresh L from hinv.2
  refine h.invariant (I := fun s => GlobalUnread s ∧ ∀ b ∈ s.2.answers, b.Fresh L) ?_ ?_
  · rintro s ⟨-, hs⟩
    rw [GlobalUnread, hs]
    exact ⟨fun _ h => h.elim, fun _ hb => absurd hb List.not_mem_nil⟩
  · rintro s a t ⟨hs, hanswers⟩ hok hst
    refine ⟨globalUnread_step hs hst, fun b hb => ?_⟩
    rw [hst.2] at hb
    rcases List.mem_append.1 hb with hb | hb
    · exact fresh_answered hs hok (Option.mem_toList.1 hb)
    · exact hanswers b hb

/-! ## Sample runs -/

/-- A call that is made. -/
theorem reachable_step {ok : SandboxProcess × SandboxRecord → SandboxCall → Prop} {p : SandboxProcess}
    (h : (sandboxSystem L).Reachable ok s) (hok : ok s a) (hst : s.1.step L a = some p) :
    (sandboxSystem L).Reachable ok (p, s.2.next L s.1 a p) :=
  h.tail hok ⟨hst, rfl⟩

/-- A call that returns for an attribute. -/
theorem step_attr {p : SandboxProcess} {i : ℕ} {ret : Ret} {g' : GlobalData}
    {attrval : Option (Block (Option Attrval))} (hi : p.handles i = some bhandle)
    (hg : p.global = some g) (h : sandboxAttr L stack attr g = .ok (ret, attrval, g')) :
    p.step L (.attr i attr stack) = some { p with global := some g' } ∧
      p.answered L (.attr i attr stack) = some ⟨bhandle, attr, stack, .ok (ret, attrval)⟩ := by
  rw [SandboxProcess.step, SandboxProcess.answered, hi, hg]
  simp only [Option.bind_eq_bind, Option.bind_some, sandboxAnswer, h]
  exact ⟨rfl, rfl⟩

end Process

/-- The file of an archive without entries. -/
def emptySandbox : Fhandle where
  filename := ascii "/jp/sandbox"
  filemode := O_RDONLY
  filedata := ⟨List.replicate (2 * T_BLOCKSIZE) 0, by rw [List.length_replicate]; decide⟩
  modified := false

/-- The file of an archive with a file `out.txt`. -/
def outSandbox : Fhandle := sampleSandbox (.inl ⟨rfl, rfl⟩)

theorem listsEntries_outSandbox :
    ListsEntries ustar [] outSandbox [(sampleTh (ascii "out.txt"), ascii "ok")] :=
  listsEntries outSandbox (archive_sample (.inl ⟨rfl, rfl⟩)) (List.cons_ne_nil _ _)

/-- A process whose handle opened last is of some file. -/
def sampleProcess (last : Fhandle) (handles : ℕ → Option Fhandle) : SandboxProcess :=
  ⟨some (.opened last), handles⟩

/-- Nothing is found in the archive without entries. -/
theorem sandboxAttr_emptySandbox : ∃ g, sandboxAttr ustar [] GLITE_JP_ATTR_ISB_FILENAME
    (.opened emptySandbox) = .ok (none, none, g) := by
  have hread : thRead ustar (.opened emptySandbox) = (none, _) := thRead_eq thRead_zeros
  rw [sandboxAttr, branch_filename]
  exact ⟨_, listEntries_none hread⟩

/-- The files of the handles: one of an archive, and one of the archive without entries. -/
def oneHandle : ℕ → Option Fhandle := Function.update (fun _ => none) 0 (some outSandbox)

def twoHandles : ℕ → Option Fhandle := Function.update oneHandle 1 (some emptySandbox)

/-- The names of the files in two archives, each asked for when its handle was just opened; the
    first one is closed, opened and asked for once more. -/
theorem answers_fresh_sample : ∃ s, (sandboxSystem ustar).Reachable ReadsFresh s ∧
    s.2.answers.map SandboxAnswered.bhandle = [outSandbox, emptySandbox, outSandbox] ∧
    ∀ b ∈ s.2.answers, b.Fresh ustar := by
  obtain ⟨b, g, hattr, -⟩ := listsEntries_outSandbox
  obtain ⟨g', hnone⟩ := sandboxAttr_emptySandbox
  have hinit : (sandboxSystem ustar).Reachable ReadsFresh (⟨none, fun _ => none⟩, ⟨[], []⟩) :=
    .init ⟨rfl, rfl⟩
  have hopen := reachable_step (a := .open 0 outSandbox) (p := sampleProcess outSandbox oneHandle)
    hinit trivial rfl
  obtain ⟨hstep, hanswered⟩ := step_attr (i := 0) (p := sampleProcess outSandbox oneHandle)
    rfl rfl hattr
  have hread := reachable_step (a := .attr 0 GLITE_JP_ATTR_ISB_FILENAME []) hopen
    (fun _ _ hb => Option.some.inj hb) hstep
  have hopen₁ := reachable_step (a := .open 1 emptySandbox)
    (p := sampleProcess emptySandbox twoHandles) hread trivial rfl
  obtain ⟨hstep₁, hanswered₁⟩ := step_attr (i := 1) (p := sampleProcess emptySandbox twoHandles)
    rfl rfl hnone
  have hread₁ := reachable_step (a := .attr 1 GLITE_JP_ATTR_ISB_FILENAME []) hopen₁
    (fun _ _ hb => Option.some.inj hb) hstep₁
  have hclose := reachable_step (a := .close 0)
    (p := ⟨some g', Function.update twoHandles 0 none⟩) hread₁ trivial rfl
  have hopen₂ := reachable_step (a := .open 0 outSandbox) (p := sampleProcess outSandbox
    (Function.update (Function.update twoHandles 0 none) 0 (some outSandbox))) hclose trivial rfl
  obtain ⟨hstep₂, hanswered₂⟩ := step_attr (i := 0) (p := sampleProcess outSandbox
    (Function.update (Function.update twoHandles 0 none) 0 (some outSandbox))) rfl rfl hattr
  have hread₂ := reachable_step (a := .attr 0 GLITE_JP_ATTR_ISB_FILENAME []) hopen₂
    (fun _ _ hb => Option.some.inj hb) hstep₂
  refine ⟨_, hread₂, ?_, answers_fresh hread₂⟩
  simp only [SandboxRecord.next, hanswered, hanswered₁, hanswered₂]
  rfl

/-- The names of the files in an archive, asked for when an empty one was opened behind it: there
    are none. -/
theorem not_answers_fresh : ∃ s, (sandboxSystem ustar).Reachable System.Always s ∧
    ∃ b ∈ s.2.answers, ¬b.Fresh ustar := by
  obtain ⟨b, g, hattr, -⟩ := listsEntries_outSandbox
  obtain ⟨g', hnone⟩ := sandboxAttr_emptySandbox
  have hinit : (sandboxSystem ustar).Reachable System.Always (⟨none, fun _ => none⟩, ⟨[], []⟩) :=
    .init ⟨rfl, rfl⟩
  have hopen := reachable_step (a := .open 0 outSandbox)
    (p := sampleProcess outSandbox oneHandle) hinit trivial rfl
  have hopen' := reachable_step (a := .open 1 emptySandbox)
    (p := sampleProcess emptySandbox twoHandles) hopen trivial rfl
  obtain ⟨hstep, hanswered⟩ := step_attr (i := 0) (p := sampleProcess emptySandbox twoHandles)
    rfl rfl hnone
  have hread := reachable_step hopen' trivial hstep
  refine ⟨_, hread, ⟨outSandbox, GLITE_JP_ATTR_ISB_FILENAME, [], .ok (none, none)⟩, ?_, ?_⟩
  · rw [SandboxRecord.next, hanswered]
    exact .head _
  · rw [SandboxAnswered.Fresh, sandboxAnswer, hattr]
    intro h
    cases h

end JobProvenance
