import JobProvenance.Common.DeferredQueue
import JobProvenance.Primary.Requests

/-!
# Arguments of deferred calls

A slave serves requests, and makes the calls a request has deferred when it has
answered it. The argument of a call is allocated when the call is deferred, and the
function that is called frees it, or parts of it, on some of its ways out, while the
queue keeps a call that has failed, and makes it again after a later request.

* `DeferredFunc.run`: what a function returns, and what it leaves of its argument;
* `slaveSystem`: a slave that serves requests, with all that was ever passed to a
  deferred function;
* `whole_of_reachable`: nothing of what is passed is freed, as long as no feed of the
  past fails, which frees its feed and stays in the queue.
-/

namespace JobProvenance

/-! ## Functions and arguments -/

/-- The functions whose calls are deferred. -/
inductive DeferredFunc
  | runFeedDeferred
  | registerFeedDeferred
  | matchAttrDeferred
  | matchAttrMultiDeferred
  | matchFileDeferred
  deriving DecidableEq

/-- An argument, with what its pointers point to; there is nothing behind a pointer to
    what was freed. -/
inductive DeferredArg
  | jpfeed (feed : Option Jpfeed)
  | matchAttr (job : Option Bytes) (attrs : Option (List Attrval))
  | matchAttrMulti (jobs : Option (List Bytes)) (attrs : Option (List (List Attrval)))
  | matchFile (job cls : Option Bytes) (name : Option (Option Bytes))

/-- Nothing of an argument is freed. -/
def DeferredArg.Whole : DeferredArg → Prop
  | .jpfeed feed => feed.isSome
  | .matchAttr job attrs => job.isSome ∧ attrs.isSome
  | .matchAttrMulti jobs attrs => jobs.isSome ∧ attrs.isSome
  | .matchFile job cls name => job.isSome ∧ cls.isSome ∧ name.isSome

/-- How what the deferred functions call ends: of a feed of the past the query, with the
    batches that are sent meanwhile, and the sending of the last batch; of a file the
    search for its plugins, and opening it, which is needless when the slave has no
    feeds. -/
structure FeedingOutcome where
  query : Jpfeed → Ret
  drain : Jpfeed → Ret
  feeds : Bool
  lookup : Bytes → Ret
  openFile : Bytes → Bytes → Option Bytes → ℤ

/-- What a deferred function returns, and what it leaves of its argument. -/
def DeferredFunc.run (o : FeedingOutcome) : DeferredFunc → DeferredArg → Exec (ℤ × DeferredArg)
  | .runFeedDeferred, .jpfeed feed => do
    let feed ← Exec.deref feed
    match splitFeed feed with
    | .error (.errno e) => return (e.code, .jpfeed none)
    | .error e => throw e
    | .ok _ =>
      match o.query feed with
      | none => return (retCode (o.drain feed), .jpfeed none)
      | some .ENOENT => return (0, .jpfeed none)
      | some e => return (e.code, .jpfeed none)
  | .registerFeedDeferred, .jpfeed feed => do
    let _ ← Exec.deref feed
    return (0, .jpfeed feed)
  | .matchAttrDeferred, .matchAttr job attrs => do
    let _ ← Exec.deref job
    let _ ← Exec.deref attrs
    return (0, .matchAttr none attrs)
  | .matchAttrMultiDeferred, .matchAttrMulti jobs attrs => do
    let _ ← Exec.deref jobs
    let _ ← Exec.deref attrs
    return (0, .matchAttrMulti none none)
  | .matchFileDeferred, .matchFile job cls name => do
    let job' ← Exec.deref job
    let cls' ← Exec.deref cls
    let name' ← Exec.deref name
    -- what is returned before the end leaves the argument as it is
    if o.feeds = false then return (0, .matchFile job cls name)
    else
      match o.lookup cls' with
      | some .ENOENT => return (0, .matchFile job cls name)
      | some _ => return (-1, .matchFile job cls name)
      | none =>
        let ret := o.openFile job' cls' name'
        if ret ≠ 0 then return (ret, .matchFile job cls name)
        else return (0, .matchFile none none none)
  | _, _ => .error .fault

/-! ## A slave -/

/-- What is on the heap: the arguments, by their addresses. Besides, what was passed to
    deferred functions, as it was then, and whether the slave has left the language. -/
structure ArgMemory where
  args : List DeferredArg
  passed : List (DeferredFunc × DeferredArg)
  ended : Bool

/-- Makes a deferred call. -/
def callDeferred (o : FeedingOutcome) (func : DeferredFunc) (arg : Option ℕ) (m : ArgMemory) :
    ℤ × ArgMemory :=
  match arg with
  | none => (-1, { m with ended := true })
  | some addr =>
    match m.args[addr]? with
    | none => (-1, { m with ended := true })
    | some a =>
      let passed := m.passed ++ [(func, a)]
      match func.run o a with
      | .ok (ret, a') => (ret, { m with args := m.args.set addr a', passed })
      | .error _ => (-1, { m with passed, ended := true })

/-- What a request can defer. -/
inductive Deferring
  | runFeed (feed : Jpfeed)
  | registerFeed (feed : Jpfeed)
  | matchAttr (job : Bytes) (attrs : List Attrval)
  | matchAttrMulti (jobs : List (Bytes × List Attrval))
  | matchFile (job cls : Bytes) (name : Option Bytes)

/-- The function that is called. -/
def Deferring.func : Deferring → DeferredFunc
  | .runFeed _ => .runFeedDeferred
  | .registerFeed _ => .registerFeedDeferred
  | .matchAttr .. => .matchAttrDeferred
  | .matchAttrMulti _ => .matchAttrMultiDeferred
  | .matchFile .. => .matchFileDeferred

/-- The argument that is allocated for it. -/
def Deferring.arg : Deferring → DeferredArg
  | .runFeed feed => .jpfeed (some feed)
  | .registerFeed feed => .jpfeed (some feed)
  | .matchAttr job attrs => .matchAttr (some job) (some attrs)
  | .matchAttrMulti jobs => .matchAttrMulti (some (jobs.map (·.1))) (some (jobs.map (·.2)))
  | .matchFile job cls name => .matchFile (some job) (some cls) (some name)

theorem Deferring.whole_arg (d : Deferring) : d.arg.Whole := by
  cases d with
  | runFeed => rfl
  | registerFeed => rfl
  | matchAttr => exact ⟨rfl, rfl⟩
  | matchAttrMulti => exact ⟨rfl, rfl⟩
  | matchFile => exact ⟨rfl, rfl, rfl⟩

/-- A slave: the queue of its context, and its memory. -/
structure DeferringSlave where
  ctx : JpContext DeferredFunc ℕ
  memory : ArgMemory

/-- Allocates the argument of a call and defers the call. -/
def DeferringSlave.defer (s : DeferringSlave) (d : Deferring) : Exec DeferringSlave := do
  let ctx ← addDeferred s.ctx d.func (some s.memory.args.length)
  return ⟨ctx, { s.memory with args := s.memory.args ++ [d.arg] }⟩

/-- A request: what it defers, whether it is answered without a fault, and how what the
    deferred functions call ends. -/
structure SlaveRequest where
  defers : List Deferring
  answered : Bool
  outcome : FeedingOutcome

/-- Serves a request; an error of the deferred calls is printed. -/
def DeferringSlave.request (s : DeferringSlave) (r : SlaveRequest) : Exec DeferringSlave := do
  let s ← r.defers.foldlM DeferringSlave.defer s
  if r.answered then
    let run ← runDeferredQueue (callDeferred r.outcome) s.ctx s.memory
    return ⟨run.ctx, run.state⟩
  else return s

/-- A slave that starts with an empty queue, until it leaves the language. -/
def slaveSystem : System DeferringSlave SlaveRequest where
  init s := s = ⟨⟨none, none⟩, ⟨[], [], false⟩⟩
  step s r t := s.memory.ended = false ∧ s.request r = .ok t

/-! ## Calls that keep their arguments -/

/-- A feed of the past is not refused before its query is run: it has a condition on
    metadata. Without attributes or conditions the slave leaves the language. -/
def Jpfeed.HasMetadataCond (feed : Jpfeed) : Prop :=
  feed.attrs ≠ [] → feed.qry ≠ [] → ∃ qr ∈ feed.qry, isMetadata qr.attr = true

/-- Feeding the past goes well. -/
def FedWell (o : FeedingOutcome) (feed : Jpfeed) : Prop :=
  feed.HasMetadataCond ∧ (o.query feed = none ∧ o.drain feed = none ∨ o.query feed = some .ENOENT)

section Calls

variable {o : FeedingOutcome} {func : DeferredFunc} {a a' : DeferredArg} {feed : Jpfeed} {ret : ℤ}

theorem splitFeed_ne_errno (h : feed.HasMetadataCond) (e : Errno) :
    splitFeed feed ≠ .error (.errno e) := by
  intro hsplit
  rw [splitFeed] at hsplit
  cases hattrs : feed.attrs with
  | nil => rw [hattrs] at hsplit; cases hsplit
  | cons attr attrs =>
    cases hqry : feed.qry with
    | nil => rw [hattrs, hqry] at hsplit; cases hsplit
    | cons qr qry =>
      obtain ⟨m, hm, hmeta⟩ := h (by rw [hattrs]; exact List.cons_ne_nil _ _)
        (by rw [hqry]; exact List.cons_ne_nil _ _)
      rw [elements_eq_ok.2 ⟨by rw [hattrs]; exact List.cons_ne_nil _ _, rfl⟩, Exec.ok_bind,
        elements_eq_ok.2 ⟨by rw [hqry]; exact List.cons_ne_nil _ _, rfl⟩, Exec.ok_bind] at hsplit
      dsimp only at hsplit
      rw [if_neg fun hnil => List.filter_eq_nil_iff.1 hnil m hm hmeta] at hsplit
      cases hsplit

/-- A feed of the past that goes well leaves the queue. -/
theorem run_runFeedDeferred (h : FedWell o feed)
    (hrun : DeferredFunc.runFeedDeferred.run o (.jpfeed (some feed)) = .ok (ret, a')) : ret = 0 := by
  rw [DeferredFunc.run, Exec.deref, Exec.ok_bind] at hrun
  cases hsplit : splitFeed feed with
  | error e =>
    rw [hsplit] at hrun
    cases e with
    | errno e => exact absurd hsplit (splitFeed_ne_errno h.1 e)
    | fault => cases hrun
    | hang => cases hrun
  | ok f =>
    rw [hsplit] at hrun
    rcases h.2 with ⟨hquery, hdrain⟩ | hquery
    · rw [hquery, hdrain] at hrun
      cases hrun
      rfl
    · rw [hquery] at hrun
      cases hrun
      rfl

/-- What the storage feeds of the past ends in one of the ways a call can end, and the
    feed is freed whichever it is. -/
theorem exists_outcome_runFeedDeferred {answers : ℕ → Bool}
    {query : List QueryRec → List Bytes → Exec (List (Bytes × List Attrval))}
    {getAttrs : Bytes → List Bytes → Exec (List Attrval)} {s s' : Outbox} {r : Ret}
    (h : runFeedDeferred answers query getAttrs feed s = .ok r s') :
    ∃ o : FeedingOutcome, DeferredFunc.runFeedDeferred.run o (.jpfeed (some feed)) =
      .ok (retCode r, .jpfeed none) := by
  let outcome (query drain : Ret) : FeedingOutcome :=
    ⟨fun _ => query, fun _ => drain, true, fun _ => none, fun _ _ _ => 0⟩
  simp only [DeferredFunc.run, Exec.deref, Exec.ok_bind]
  rw [runFeedDeferred] at h
  cases hsplit : splitFeed feed with
  | error e =>
    rw [hsplit] at h
    cases e with
    | errno e =>
      cases h
      exact ⟨outcome none none, rfl⟩
    | fault => cases h
    | hang => cases h
  | ok f =>
    rw [hsplit] at h
    obtain ⟨⟨ret, stack⟩, t, -, h⟩ := Stateful.bind_eq_ok.1 h
    cases ret with
    | none =>
      obtain ⟨⟨ret, stack'⟩, t', -, h⟩ := Stateful.bind_eq_ok.1 h
      cases h
      exact ⟨outcome none r, rfl⟩
    | some e =>
      cases e with
      | ENOENT =>
        cases h
        exact ⟨outcome (some .ENOENT) none, rfl⟩
      | _ =>
        refine ⟨outcome r none, ?_⟩
        cases h
        rfl

/-- What a call needs in order to leave its argument alone when it fails. -/
def Ready (o : FeedingOutcome) (func : DeferredFunc) (a : DeferredArg) : Prop :=
  a.Whole ∧ ∀ feed, func = .runFeedDeferred → a = .jpfeed (some feed) → FedWell o feed

/-- A function that fails leaves its argument alone. -/
theorem run_failed (h : Ready o func a) (hrun : func.run o a = .ok (ret, a')) (hret : ret ≠ 0) :
    a' = a := by
  cases func with
  | runFeedDeferred =>
    cases a with
    | jpfeed feed =>
      obtain ⟨feed, rfl⟩ := Option.isSome_iff_exists.1 h.1
      exact absurd (run_runFeedDeferred (h.2 feed rfl rfl) hrun) hret
    | _ => cases hrun
  | registerFeedDeferred =>
    cases a with
    | jpfeed feed =>
      obtain ⟨_, -, hrun⟩ := Exec.bind_eq_ok.1 hrun
      cases hrun
      rfl
    | _ => cases hrun
  | matchAttrDeferred =>
    cases a with
    | matchAttr job attrs =>
      obtain ⟨_, -, hrun⟩ := Exec.bind_eq_ok.1 hrun
      obtain ⟨_, -, hrun⟩ := Exec.bind_eq_ok.1 hrun
      cases hrun
      exact absurd rfl hret
    | _ => cases hrun
  | matchAttrMultiDeferred =>
    cases a with
    | matchAttrMulti jobs attrs =>
      obtain ⟨_, -, hrun⟩ := Exec.bind_eq_ok.1 hrun
      obtain ⟨_, -, hrun⟩ := Exec.bind_eq_ok.1 hrun
      cases hrun
      exact absurd rfl hret
    | _ => cases hrun
  | matchFileDeferred =>
    cases a with
    | matchFile job cls name =>
      obtain ⟨_, -, hrun⟩ := Exec.bind_eq_ok.1 hrun
      obtain ⟨_, -, hrun⟩ := Exec.bind_eq_ok.1 hrun
      obtain ⟨_, -, hrun⟩ := Exec.bind_eq_ok.1 hrun
      split at hrun
      · cases hrun
        rfl
      · split at hrun
        · cases hrun
          rfl
        · cases hrun
          rfl
        · dsimp only at hrun
          split at hrun
          · cases hrun
            rfl
          · cases hrun
            exact absurd rfl hret
    | _ => cases hrun

end Calls

/-! ## Arguments of the queue -/

/-- The calls of a queue have arguments of their own, about which something holds. -/
def OwnedArgs (P : DeferredFunc → DeferredArg → Prop) (args : List DeferredArg)
    (q : List (DeferredCall DeferredFunc ℕ)) : Prop :=
  (q.map (·.2)).Nodup ∧ ∀ c ∈ q, ∃ addr a, c.2 = some addr ∧ args[addr]? = some a ∧ P c.1 a

section OwnedArgs

variable {P Q : DeferredFunc → DeferredArg → Prop} {args : List DeferredArg}
  {q rest : List (DeferredCall DeferredFunc ℕ)} {func : DeferredFunc} {a : DeferredArg} {addr : ℕ}

theorem OwnedArgs.mono (h : OwnedArgs P args q)
    (hPQ : ∀ c ∈ q, ∀ addr a, c.2 = some addr → args[addr]? = some a → P c.1 a → Q c.1 a) :
    OwnedArgs Q args q := by
  refine ⟨h.1, fun c hc => ?_⟩
  obtain ⟨addr, a, haddr, ha, hP⟩ := h.2 c hc
  exact ⟨addr, a, haddr, ha, hPQ c hc addr a haddr ha hP⟩

/-- What becomes of the argument of the first call is nothing to the others. -/
theorem OwnedArgs.set (h : OwnedArgs P args ((func, some addr) :: q)) (a : DeferredArg) :
    OwnedArgs P (args.set addr a) q := by
  obtain ⟨hnodup, hargs⟩ := h
  obtain ⟨hnew, hnodup⟩ := List.nodup_cons.1 hnodup
  refine ⟨hnodup, fun c hc => ?_⟩
  obtain ⟨addr', a', haddr, ha, hP⟩ := hargs c (List.mem_cons_of_mem _ hc)
  have hne : addr ≠ addr' := by
    rintro rfl
    exact hnew (List.mem_map.2 ⟨c, hc, haddr⟩)
  exact ⟨addr', a', haddr, by rw [List.getElem?_set_ne hne, ha], hP⟩

/-- A call that is deferred gets an argument of its own. -/
theorem OwnedArgs.push (h : OwnedArgs P args q) (ha : P func a) :
    OwnedArgs P (args ++ [a]) (q ++ [(func, some args.length)]) := by
  obtain ⟨hnodup, hargs⟩ := h
  refine ⟨?_, fun c hc => ?_⟩
  · rw [List.map_append]
    refine List.nodup_append.2 ⟨hnodup, List.nodup_singleton _, ?_⟩
    rintro x hx y hy rfl
    obtain ⟨c, hc, rfl⟩ := List.mem_map.1 hx
    obtain ⟨addr, b, haddr, hb, -⟩ := hargs c hc
    have hlt : addr < args.length := (List.getElem?_eq_some_iff.1 hb).1
    rw [haddr, List.map_singleton, List.mem_singleton, Option.some_inj] at hy
    omega
  · rcases List.mem_append.1 hc with hc | hc
    · obtain ⟨addr, b, haddr, hb, hP⟩ := hargs c hc
      have hlt : addr < args.length := (List.getElem?_eq_some_iff.1 hb).1
      exact ⟨addr, b, haddr, by rw [List.getElem?_append_left hlt, hb], hP⟩
    · obtain rfl := List.mem_singleton.1 hc
      exact ⟨args.length, a, rfl, by rw [List.getElem?_concat_length], ha⟩

end OwnedArgs

/-! ## Calls of the queue -/

section Made

variable {o : FeedingOutcome} {m m' : ArgMemory} {func : DeferredFunc} {arg : Option ℕ} {ret : ℤ}
  {q rest : List (DeferredCall DeferredFunc ℕ)} {calls : List (DeferredCall DeferredFunc ℕ × ℤ)}

/-- Nothing of what was passed was freed then. -/
def ArgMemory.PassedWhole (m : ArgMemory) : Prop := ∀ p ∈ m.passed, p.2.Whole

/-- The first call of a queue is passed something whole; when it fails, it can stay in
    the queue. -/
theorem owned_callDeferred (h : OwnedArgs (Ready o) m.args ((func, arg) :: q)) (hm : m.PassedWhole)
    (hcall : callDeferred o func arg m = (ret, m')) :
    m'.PassedWhole ∧ OwnedArgs (Ready o) m'.args (if ret = 0 then q else (func, arg) :: q) := by
  obtain ⟨addr, a, harg, ha, hready⟩ := h.2 _ List.mem_cons_self
  obtain rfl : arg = some addr := harg
  have hpassed : ∀ p ∈ m.passed ++ [(func, a)], p.2.Whole := by
    intro p hp
    rcases List.mem_append.1 hp with hp | hp
    · exact hm p hp
    · rw [List.mem_singleton.1 hp]
      exact hready.1
  rw [callDeferred] at hcall
  dsimp only at hcall
  rw [ha] at hcall
  dsimp only at hcall
  cases hrun : func.run o a with
  | error e =>
    rw [hrun] at hcall
    obtain ⟨rfl, rfl⟩ := Prod.mk.inj hcall
    exact ⟨hpassed, h⟩
  | ok r =>
    obtain ⟨ret', a'⟩ := r
    rw [hrun] at hcall
    obtain ⟨rfl, rfl⟩ := Prod.mk.inj hcall
    refine ⟨hpassed, ?_⟩
    by_cases hret : ret' = 0
    · rw [if_pos hret]
      exact h.set a'
    · rw [if_neg hret]
      dsimp only
      obtain ⟨hlt, hget⟩ := List.getElem?_eq_some_iff.1 ha
      rw [run_failed hready hrun hret, ← hget, List.set_getElem_self]
      exact h

/-- Calls that return zero leave the others their arguments. -/
theorem Made.owned {done : List (DeferredCall DeferredFunc ℕ)} (h : Made (callDeferred o) m calls m')
    (hcalls : calls = done.map (·, 0)) (howned : OwnedArgs (Ready o) m.args (done ++ rest))
    (hm : m.PassedWhole) : m'.PassedWhole ∧ OwnedArgs (Ready o) m'.args rest := by
  induction h generalizing done with
  | nil =>
    obtain rfl := List.map_eq_nil_iff.1 hcalls.symm
    exact ⟨hm, howned⟩
  | cons hcall _ ih =>
    cases done with
    | nil => cases hcalls
    | cons c done =>
      obtain ⟨hc, hrest⟩ := List.cons.inj hcalls
      obtain ⟨hc, hret⟩ := Prod.mk.inj hc
      rw [List.cons_append, ← hc] at howned
      obtain ⟨hm', howned'⟩ := owned_callDeferred howned hm hcall
      rw [if_pos hret] at howned'
      exact ih hrest howned' hm'

theorem Made.of_append {σ F A : Type} {call : F → Option A → σ → ℤ × σ} {s t : σ}
    {xs ys : List (DeferredCall F A × ℤ)} (h : Made call s (xs ++ ys) t) :
    ∃ u, Made call s xs u ∧ Made call u ys t := by
  induction xs generalizing s with
  | nil => exact ⟨s, .nil, h⟩
  | cons x xs ih =>
    cases h with
    | cons hcall h =>
      obtain ⟨u, hxs, hys⟩ := ih h
      exact ⟨u, .cons hcall hxs, hys⟩

/-- What is left in the queue by a run has its arguments. -/
theorem exists_owned_of_serves {r : DeferredRun DeferredFunc ℕ ArgMemory}
    (h : Made (callDeferred o) m r.calls r.state) (hserves : Serves q r)
    (howned : OwnedArgs (Ready o) m.args q) (hm : m.PassedWhole) :
    r.state.PassedWhole ∧ ∃ q', r.ctx.Represents q' ∧ OwnedArgs (Ready o) r.state.args q' := by
  cases hserves with
  | all hret hcalls hqueue =>
    rw [← List.append_nil q] at howned
    obtain ⟨hm', howned'⟩ := h.owned hcalls howned hm
    exact ⟨hm', [], hqueue, howned'⟩
  | failed done c rest hret hpending hcalls hqueue =>
    rw [hcalls] at h
    obtain ⟨u, hdone, hfail⟩ := h.of_append
    rw [hpending] at howned
    obtain ⟨hu, howned'⟩ := hdone.owned rfl howned hm
    cases hfail with
    | cons hcall hnil =>
      cases hnil with
      | nil =>
        obtain ⟨hm', howned''⟩ := owned_callDeferred howned' hu hcall
        rw [if_neg hret] at howned''
        exact ⟨hm', _, hqueue, howned''⟩

end Made

/-! ## Requests one after the other -/

section Reachable

variable {s t : DeferringSlave} {r : SlaveRequest} {P : DeferredFunc → DeferredArg → Prop}
  {q : List (DeferredCall DeferredFunc ℕ)}

/-- A feed of the past is in the queue. -/
def DeferringSlave.Awaits (s : DeferringSlave) (feed : Jpfeed) : Prop :=
  ∃ q addr, s.ctx.Represents q ∧ (.runFeedDeferred, some addr) ∈ q ∧
    s.memory.args[addr]? = some (.jpfeed (some feed))

/-- When a request is answered, the feeds of the past that are in the queue then go well. -/
def FeedsWell (s : DeferringSlave) (r : SlaveRequest) : Prop :=
  r.answered = true → ∀ feed, s.Awaits feed ∨ .runFeed feed ∈ r.defers → FedWell r.outcome feed

/-- What holds between requests: the calls of the queue have their arguments, of which
    nothing is freed, and nothing was when they were passed. -/
structure DeferringSlave.Kept (s : DeferringSlave) : Prop where
  owned : ∃ q, s.ctx.Represents q ∧ OwnedArgs (fun _ a => a.Whole) s.memory.args q
  passed : s.memory.PassedWhole

/-- Calls are deferred with arguments of their own. -/
theorem foldlM_defer {ds : List Deferring} (hctx : s.ctx.Represents q)
    (howned : OwnedArgs P s.memory.args q) (hds : ∀ d ∈ ds, P d.func d.arg) :
    ∃ s' q', ds.foldlM DeferringSlave.defer s = .ok s' ∧ s'.memory.passed = s.memory.passed ∧
      s'.ctx.Represents q' ∧ OwnedArgs P s'.memory.args q' := by
  induction ds generalizing s q with
  | nil => exact ⟨s, q, rfl, rfl, hctx, howned⟩
  | cons d ds ih =>
    obtain ⟨ctx', hadd, hctx'⟩ := addDeferred_eq hctx d.func (some s.memory.args.length)
    have hdefer : s.defer d = .ok ⟨ctx', { s.memory with args := s.memory.args ++ [d.arg] }⟩ := by
      rw [DeferringSlave.defer, hadd]
      rfl
    obtain ⟨s', q', hs', hpassed, hctx'', howned'⟩ := ih
      (s := ⟨ctx', { s.memory with args := s.memory.args ++ [d.arg] }⟩) hctx'
      (howned.push (hds d List.mem_cons_self)) fun d hd => hds d (List.mem_cons_of_mem _ hd)
    exact ⟨s', q', by rw [List.foldlM_cons, hdefer, Exec.ok_bind, hs'], hpassed, hctx'', howned'⟩

theorem DeferringSlave.Kept.request (hs : s.Kept) (hr : FeedsWell s r)
    (h : s.request r = .ok t) : t.Kept := by
  obtain ⟨⟨q, hctx, howned⟩, hpassed⟩ := hs
  rw [DeferringSlave.request] at h
  cases hans : r.answered with
  | false =>
    obtain ⟨s', q', hs', hpassed', hctx', howned'⟩ := foldlM_defer hctx howned
      fun d (_ : d ∈ r.defers) => d.whole_arg
    rw [hs', Exec.ok_bind, hans] at h
    cases h
    exact ⟨⟨q', hctx', howned'⟩, by rw [ArgMemory.PassedWhole, hpassed']; exact hpassed⟩
  | true =>
    have hready : OwnedArgs (Ready r.outcome) s.memory.args q := by
      refine howned.mono fun c hc addr a haddr ha hwhole => ⟨hwhole, ?_⟩
      rintro feed hfunc rfl
      refine hr hans feed (.inl ⟨q, addr, hctx, ?_, ha⟩)
      rwa [← hfunc, ← haddr]
    have hdefers : ∀ d ∈ r.defers, Ready r.outcome d.func d.arg := by
      refine fun d hd => ⟨d.whole_arg, fun feed hfunc harg => ?_⟩
      cases d with
      | runFeed feed' =>
        cases harg
        exact hr hans feed (.inr hd)
      | registerFeed => cases hfunc
      | matchAttr => cases hfunc
      | matchAttrMulti => cases hfunc
      | matchFile => cases hfunc
    obtain ⟨s', q', hs', hpassed', hctx', howned'⟩ := foldlM_defer hctx hready hdefers
    obtain ⟨run, hrun, hmade, hserves⟩ :=
      runDeferredQueue_eq (callDeferred r.outcome) hctx' s'.memory
    rw [hs', Exec.ok_bind, hans, if_pos rfl, hrun] at h
    cases h
    obtain ⟨hm, q'', hctx'', howned''⟩ := exists_owned_of_serves hmade hserves howned'
      (by rw [ArgMemory.PassedWhole, hpassed']; exact hpassed)
    exact ⟨⟨q'', hctx'', howned''.mono fun _ _ _ _ _ _ h => h.1⟩, hm⟩

theorem DeferringSlave.Kept.of_reachable (h : slaveSystem.Reachable FeedsWell s) : s.Kept := by
  refine h.invariant (fun s hs => ?_) fun s r t hs hok hst => hs.request hok hst.2
  obtain rfl : s = _ := hs
  exact ⟨⟨[], .inl ⟨rfl, rfl, rfl⟩, List.nodup_nil, fun _ hc => absurd hc List.not_mem_nil⟩,
    fun _ hp => absurd hp List.not_mem_nil⟩

/-- Whatever requests a slave serves, it passes no argument of which something is freed to
    a deferred function, as long as the feeds of the past that it runs go well. -/
theorem whole_of_reachable (h : slaveSystem.Reachable FeedsWell s) :
    ∀ p ∈ s.memory.passed, p.2.Whole :=
  (DeferringSlave.Kept.of_reachable h).passed

end Reachable

/-! ## A feed without a condition on metadata -/

/-- The jobs of the past that are red. -/
def redHistory : FeedRequest where
  destination := some (ascii "https://is")
  attributes := [ascii "urn:app:color"]
  conditions := [⟨ascii "urn:app:color", .EQUAL, none, some (.string (ascii "red")), none⟩]
  history := true
  continuous := false

/-- What is fed for them. -/
def redFeed : Jpfeed := { colorFeed .EQUAL (ascii "red") none with expires := 0 }

theorem serveFeedIndex_redHistory :
    serveFeedIndex 0 (ascii "feed") redHistory = .ok (some [.runFeed redFeed]) := rfl

/-- Feeding of which nothing else fails. -/
def noFailure : FeedingOutcome := ⟨fun _ => none, fun _ => none, true, fun _ => none, fun _ _ _ => 0⟩

/-- A slave that starts. -/
def newSlave : DeferringSlave := ⟨⟨none, none⟩, ⟨[], [], false⟩⟩

theorem exists_freed_redFeed : ∃ s t, newSlave.request ⟨[.runFeed redFeed], true, noFailure⟩ = .ok s ∧
    s.memory.ended = false ∧ s.request ⟨[], true, noFailure⟩ = .ok t ∧
      (.runFeedDeferred, .jpfeed none) ∈ t.memory.passed :=
  ⟨_, _, rfl, rfl, rfl, List.mem_cons_of_mem _ List.mem_cons_self⟩

/-- The feed is refused and freed, and passed again after the next request. -/
theorem not_whole_redFeed :
    serveFeedIndex 0 (ascii "feed") redHistory = .ok (some [.runFeed redFeed]) ∧
      ¬∀ s, slaveSystem.Reachable System.Always s → ∀ p ∈ s.memory.passed, p.2.Whole := by
  refine ⟨serveFeedIndex_redHistory, fun hall => ?_⟩
  obtain ⟨s, t, hs, hends, ht, hfreed⟩ := exists_freed_redFeed
  have hinit : slaveSystem.Reachable System.Always newSlave := .init rfl
  have hreach := (hinit.tail trivial ⟨rfl, hs⟩).tail trivial ⟨hends, ht⟩
  exact Bool.false_ne_true (hall t hreach _ hfreed)

/-- A feed of the registrations before 2033 goes well. -/
theorem whole_of_reachable_sample : ∃ s, slaveSystem.Reachable FeedsWell s ∧
    s.memory.passed = [(.runFeedDeferred, .jpfeed (some regtimeFeed))] ∧
    ∀ p ∈ s.memory.passed, p.2.Whole := by
  obtain ⟨s, hs, hpassed⟩ : ∃ s, newSlave.request ⟨[.runFeed regtimeFeed], true, noFailure⟩ = .ok s ∧
      s.memory.passed = [(.runFeedDeferred, .jpfeed (some regtimeFeed))] := ⟨_, rfl, rfl⟩
  have hwell : FeedsWell newSlave ⟨[.runFeed regtimeFeed], true, noFailure⟩ := by
    rintro - feed (⟨q, addr, -, -, hfeed⟩ | hfeed)
    · cases hfeed
    · obtain rfl : feed = regtimeFeed := by simpa using hfeed
      exact ⟨fun _ _ => ⟨_, List.mem_singleton_self _, by decide +kernel⟩, .inl ⟨rfl, rfl⟩⟩
  have hinit : slaveSystem.Reachable FeedsWell newSlave := .init rfl
  have hreach := hinit.tail hwell ⟨rfl, hs⟩
  exact ⟨s, hreach, hpassed, whole_of_reachable hreach⟩

end JobProvenance
