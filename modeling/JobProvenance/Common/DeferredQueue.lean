import JobProvenance.Lib.CString
import JobProvenance.Lib.Memory
import JobProvenance.Lib.System

/-!
# The deferred queue

Functions whose calls a server puts off until a request is answered. They are kept
in two arrays, of the functions and of their arguments, which end with null pointers
and are shifted when a call has returned zero; a call that fails stays in front of
the queue.

* `JpContext.Represents`: which calls the arrays of a context hold, kept by
  `addDeferred` and `runDeferredFrom`;
* `served_of_reachable`: whatever was added and run before, a run makes the pending
  calls in the order they were added, up to the first that fails, and keeps those
  from it on.

The functions are called in some state of whatever they work on; what they do to the
queue is nothing.
-/

namespace JobProvenance

/-- The queue of a context: the arrays of the functions and of their arguments, any of
    these being null pointers. -/
structure JpContext (F A : Type) where
  deferredFunc : Option (Block (Option F))
  deferredArg : Option (Block (Option A))

/-- A call: the function and its argument. -/
abbrev DeferredCall (F A : Type) := F × Option A

section Operations

variable {F A σ : Type}

/-- The number of functions in front of the null pointer. -/
def countFuncs : Block (Option F) → Exec ℕ
  | some (some _) :: v => do
    let i ← countFuncs v
    return i + 1
  | some none :: _ => .ok 0
  | none :: _ => .error .fault
  | [] => .error .fault

/-- Adds a call to the queue. -/
def addDeferred (ctx : JpContext F A) (func : F) (arg : Option A) : Exec (JpContext F A) := do
  let i ← ctx.deferredFunc.elim (.ok 0) countFuncs
  let funcs ← (Block.realloc ctx.deferredFunc (i + 2)).write i (some func)
  let funcs ← funcs.write (i + 1) none
  let args ← (Block.realloc ctx.deferredArg (i + 2)).write i arg
  let args ← args.write (i + 1) none
  return ⟨some funcs, some args⟩

/-- What a run of the queue returns and leaves behind: the calls it has made, each with
    what it returned, and the state it leaves. -/
structure DeferredRun (F A σ : Type) where
  ret : ℤ
  ctx : JpContext F A
  calls : List (DeferredCall F A × ℤ)
  state : σ

variable (call : F → Option A → σ → ℤ × σ)

/-- The last rounds of the loop, of a given number. -/
def runDeferredFrom : ℕ → Block (Option F) → Block (Option A) → σ → Exec (DeferredRun F A σ)
  | 0, _, _, s => .ok ⟨0, ⟨none, none⟩, [], s⟩
  | n + 1, funcs, args, s => do
    let func ← Exec.deref (← funcs.read 0)
    let arg ← args.read 0
    let (ret, s) := call func arg s
    if ret ≠ 0 then return ⟨ret, ⟨some funcs, some args⟩, [((func, arg), ret)], s⟩
    else
      let funcs ← funcs.memmove 0 1 (n + 1)
      let args ← args.memmove 0 1 (n + 1)
      let r ← runDeferredFrom n funcs args s
      return { r with calls := ((func, arg), ret) :: r.calls }

/-- Runs the queue. -/
def runDeferredQueue (ctx : JpContext F A) (s : σ) : Exec (DeferredRun F A σ) :=
  match ctx.deferredFunc, ctx.deferredArg with
  | none, _ => .ok ⟨0, ctx, [], s⟩
  | some funcs, args => do
    let cnt ← countFuncs funcs
    runDeferredFrom call cnt funcs (args.getD []) s

end Operations

/-! ## What the arrays hold -/

section Represents

variable {F A σ : Type} {ctx : JpContext F A} {funcs : Block (Option F)} {args : Block (Option A)}
  {q : List (DeferredCall F A)} {func : F} {arg : Option A}

/-- Two arrays hold calls, and end with null pointers. -/
def HoldCalls (funcs : Block (Option F)) (args : Block (Option A)) (q : List (DeferredCall F A)) : Prop :=
  funcs.Holds (q.map (fun c => some c.1) ++ [none]) ∧ args.Holds (q.map (·.2) ++ [none])

/-- The calls the arrays of a context hold; without arrays there are none. -/
def JpContext.Represents (ctx : JpContext F A) (q : List (DeferredCall F A)) : Prop :=
  ctx.deferredFunc = none ∧ ctx.deferredArg = none ∧ q = [] ∨
    ∃ funcs args, ctx = ⟨some funcs, some args⟩ ∧ HoldCalls funcs args q

theorem countFuncs_eq (h : HoldCalls funcs args q) : countFuncs funcs = .ok q.length := by
  obtain ⟨⟨rest, rfl⟩, -⟩ := h
  induction q with
  | nil => rfl
  | cons c q ih =>
    have hcount : countFuncs (((q.map fun c : DeferredCall F A => some c.1) ++ [none]).map some ++ rest) =
        .ok q.length := ih
    rw [List.map_cons, List.cons_append, List.map_cons, List.cons_append, countFuncs, hcount]
    rfl

/-- Grows an array and writes a value and a null pointer behind its values. -/
theorem exists_write {α : Type} {b : Option (Block (Option α))} {xs : List (Option α)}
    (h : (b = none ∧ xs = []) ∨ ∃ b', b = some b' ∧ b'.Holds xs) (x : Option α) :
    ∃ b₁ b₂, (Block.realloc b (xs.length + 2)).write xs.length x = .ok b₁ ∧
      b₁.write (xs.length + 1) none = .ok b₂ ∧ b₂.Holds (xs ++ [x] ++ [none]) := by
  have hgrown : (Block.realloc b (xs.length + 2)).Holds xs := by
    rcases h with ⟨rfl, rfl⟩ | ⟨b', rfl, h⟩
    · exact ⟨_, rfl⟩
    · exact h.realloc (Nat.le_add_right _ _)
  obtain ⟨b₁, h₁, hb₁, hlen₁⟩ := hgrown.write (by rw [Block.length_realloc]; omega) x
  rw [Block.length_realloc] at hlen₁
  obtain ⟨b₂, h₂, hb₂, -⟩ := hb₁.write (by rw [hlen₁, List.length_append]; simp) none
  rw [List.length_append, List.length_singleton] at h₂
  exact ⟨b₁, b₂, h₁, h₂, hb₂⟩

/-- A call is added behind the others. -/
theorem addDeferred_eq (h : ctx.Represents q) (func : F) (arg : Option A) :
    ∃ ctx', addDeferred ctx func arg = .ok ctx' ∧ ctx'.Represents (q ++ [(func, arg)]) := by
  have hcount : ctx.deferredFunc.elim (.ok 0) countFuncs = Except.ok q.length ∧
      ((ctx.deferredFunc = none ∧ q.map (fun c => some c.1) = []) ∨
        ∃ b, ctx.deferredFunc = some b ∧ b.Holds (q.map (fun c => some c.1))) ∧
      ((ctx.deferredArg = none ∧ q.map (·.2) = []) ∨
        ∃ b, ctx.deferredArg = some b ∧ b.Holds (q.map (·.2))) := by
    rcases h with ⟨hf, ha, rfl⟩ | ⟨funcs, args, rfl, h⟩
    · rw [hf, ha]
      exact ⟨rfl, .inl ⟨rfl, rfl⟩, .inl ⟨rfl, rfl⟩⟩
    · exact ⟨countFuncs_eq h, .inr ⟨funcs, rfl, h.1.of_append⟩, .inr ⟨args, rfl, h.2.of_append⟩⟩
  obtain ⟨hcount, hfuncs, hargs⟩ := hcount
  obtain ⟨f₁, f₂, hf₁, hf₂, hf⟩ := exists_write hfuncs (some func)
  obtain ⟨a₁, a₂, ha₁, ha₂, ha⟩ := exists_write hargs arg
  rw [List.length_map] at hf₁ hf₂ ha₁ ha₂
  refine ⟨⟨some f₂, some a₂⟩, ?_, .inr ⟨f₂, a₂, rfl, ?_, ?_⟩⟩
  · rw [addDeferred, hcount, Exec.ok_bind, hf₁, Exec.ok_bind, hf₂, Exec.ok_bind, ha₁, Exec.ok_bind,
      ha₂]
    rfl
  · rw [List.map_append]
    exact hf
  · rw [List.map_append]
    exact ha

variable (call : F → Option A → σ → ℤ × σ)

/-- Calls that are made one after the other, with what they return. -/
inductive Made : σ → List (DeferredCall F A × ℤ) → σ → Prop
  | nil {s} : Made s [] s
  | cons {s func arg ret s' calls t} (h : call func arg s = (ret, s')) (hs : Made s' calls t) :
      Made s (((func, arg), ret) :: calls) t

/-- What a run does about pending calls: it makes all of them, or those up to the first
    that fails, and keeps the others with it. -/
inductive Serves (pending : List (DeferredCall F A)) (r : DeferredRun F A σ) : Prop
  | all (ret : r.ret = 0) (calls : r.calls = pending.map (·, 0)) (queue : r.ctx.Represents [])
  | failed (done : List (DeferredCall F A)) (c : DeferredCall F A)
      (rest : List (DeferredCall F A)) (ret : r.ret ≠ 0)
      (pending : pending = done ++ c :: rest) (calls : r.calls = done.map (·, 0) ++ [(c, r.ret)])
      (queue : r.ctx.Represents (c :: rest))

/-- The first call that is held is the one whose turn it is, and behind it the arrays
    hold the others. -/
theorem HoldCalls.shift (h : HoldCalls funcs args ((func, arg) :: q)) :
    funcs.read 0 = .ok (some func) ∧ args.read 0 = .ok arg ∧
      ∃ funcs' args', funcs.memmove 0 1 (q.length + 1) = .ok funcs' ∧
        args.memmove 0 1 (q.length + 1) = .ok args' ∧ HoldCalls funcs' args' q := by
  obtain ⟨hf, ha⟩ := h
  rw [List.map_cons, List.cons_append] at hf ha
  obtain ⟨funcs', hf', hfuncs, -⟩ := hf.memmove
  obtain ⟨args', ha', hargs, -⟩ := ha.memmove
  rw [List.length_append, List.length_map, List.length_singleton] at hf' ha'
  exact ⟨hf.read rfl, ha.read rfl, funcs', args', hf', ha', hfuncs, hargs⟩

/-- The rounds of the loop serve the calls that are held. -/
theorem runDeferredFrom_eq (h : HoldCalls funcs args q) (s : σ) :
    ∃ r, runDeferredFrom call q.length funcs args s = .ok r ∧ Made call s r.calls r.state ∧
      Serves q r := by
  induction q generalizing funcs args s with
  | nil => exact ⟨_, rfl, .nil, .all rfl rfl (.inl ⟨rfl, rfl, rfl⟩)⟩
  | cons c q ih =>
    obtain ⟨func, arg⟩ := c
    obtain ⟨hfunc, harg, funcs', args', hf, ha, hrest⟩ := h.shift
    rw [List.length_cons, runDeferredFrom, hfunc, Exec.ok_bind, harg]
    rcases hcall : call func arg s with ⟨ret, s'⟩
    simp only [Exec.deref, Exec.ok_bind, hcall]
    by_cases hret : ret = 0
    · obtain ⟨r, hr, hmade, hserves⟩ := ih hrest s'
      rw [if_neg (not_not.2 hret), hf, Exec.ok_bind, ha, Exec.ok_bind, hr, Exec.ok_bind]
      refine ⟨_, rfl, .cons hcall hmade, ?_⟩
      cases hserves with
      | all hzero hcalls hqueue =>
        refine .all hzero ?_ hqueue
        rw [hcalls, hret]
        rfl
      | failed done c rest hne hpending hcalls hqueue =>
        refine .failed ((func, arg) :: done) c rest hne (by rw [hpending]; rfl) ?_ hqueue
        rw [hcalls, hret]
        rfl
    · rw [if_pos hret]
      exact ⟨_, rfl, .cons hcall .nil,
        .failed [] (func, arg) q hret rfl rfl (.inr ⟨funcs, args, rfl, h⟩)⟩

/-- A run serves the calls a context holds. -/
theorem runDeferredQueue_eq (h : ctx.Represents q) (s : σ) :
    ∃ r, runDeferredQueue call ctx s = .ok r ∧ Made call s r.calls r.state ∧ Serves q r := by
  rcases h with ⟨hf, ha, rfl⟩ | ⟨funcs, args, rfl, h⟩
  · refine ⟨⟨0, ctx, [], s⟩, ?_, .nil, .all rfl rfl (.inl ⟨hf, ha, rfl⟩)⟩
    rw [runDeferredQueue, hf]
  · rw [runDeferredQueue]
    dsimp only
    rw [countFuncs_eq h, Exec.ok_bind]
    exact runDeferredFrom_eq call h s

end Represents

/-! ## Adding and running -/

/-- A call is added, or the queue is run, in some state of what the functions work on. -/
inductive QueueAction (F A σ : Type)
  | add (func : F) (arg : Option A)
  | run (s : σ)

section System

variable {F A σ : Type} (call : F → Option A → σ → ℤ × σ)

/-- The queue of a context, empty at first. -/
def queueSystem : System (JpContext F A) (QueueAction F A σ) where
  init ctx := ctx = ⟨none, none⟩
  step ctx a ctx' :=
    match a with
    | .add func arg => addDeferred ctx func arg = .ok ctx'
    | .run s => ∃ r, runDeferredQueue call ctx s = .ok r ∧ r.ctx = ctx'

/-- The calls that were added and have not yet returned zero, behind a step. -/
def stillPending (ctx : JpContext F A) (a : QueueAction F A σ) (_ : JpContext F A)
    (pending : List (DeferredCall F A)) : List (DeferredCall F A) :=
  match a with
  | .add func arg => pending ++ [(func, arg)]
  | .run s =>
    match runDeferredQueue call ctx s with
    | .ok r => pending.drop (r.calls.filter (·.2 = 0)).length
    | .error _ => pending

variable {call} {ctx : JpContext F A} {pending : List (DeferredCall F A)}

/-- The calls that have not returned zero are those that were not made, and the one that
    failed. -/
theorem Serves.represents {r : DeferredRun F A σ} (h : Serves pending r) :
    r.ctx.Represents (pending.drop (r.calls.filter (·.2 = 0)).length) := by
  have hzero : ∀ done : List (DeferredCall F A),
      (done.map (·, (0 : ℤ))).filter (·.2 = 0) = done.map (·, 0) := by
    intro done
    refine List.filter_eq_self.2 fun c hc => ?_
    obtain ⟨c', -, rfl⟩ := List.mem_map.1 hc
    rfl
  cases h with
  | all hret hcalls hqueue =>
    rw [hcalls, hzero, List.length_map, List.drop_length]
    exact hqueue
  | failed done c rest hret hpending hcalls hqueue =>
    have hfail : [(c, r.ret)].filter (·.2 = 0) = [] := by
      simp [hret]
    rw [hcalls, List.filter_append, hzero, hfail, List.append_nil, List.length_map, hpending,
      List.drop_left]
    exact hqueue

/-- The arrays of a context hold the pending calls, whatever was added and run. -/
theorem represents_of_reachable
    (h : ((queueSystem call).recorded [] (stillPending call)).Reachable System.Always (ctx, pending)) :
    ctx.Represents pending := by
  suffices ∀ g : JpContext F A × List (DeferredCall F A),
      ((queueSystem call).recorded [] (stillPending call)).Reachable System.Always g →
        g.1.Represents g.2 from this _ h
  intro g hg
  refine System.Reachable.invariant (I := fun g => g.1.Represents g.2) hg (fun g h₀ => ?_)
    fun g a g' hg _ hst => ?_
  · obtain ⟨hctx, hnil⟩ := h₀
    have hctx : g.1 = ⟨none, none⟩ := hctx
    exact .inl ⟨by rw [hctx], by rw [hctx], hnil⟩
  · obtain ⟨hst, hrec⟩ := hst
    rw [hrec]
    cases a with
    | add func arg =>
      obtain ⟨ctx', hadd, hctx'⟩ := addDeferred_eq hg func arg
      obtain rfl := Except.ok.inj (hadd.symm.trans hst)
      exact hctx'
    | run s =>
      obtain ⟨r, hr, hctx⟩ := hst
      obtain ⟨r', hr', -, hserves⟩ := runDeferredQueue_eq call hg s
      obtain rfl := Except.ok.inj (hr.symm.trans hr')
      rw [← hctx, stillPending, hr]
      exact hserves.represents

/-- Whatever was added and run before, a call can be added, and a run makes the pending
    calls in the order they were added, up to the first that fails; the queue then has
    those from it on. -/
theorem served_of_reachable
    (h : ((queueSystem call).recorded [] (stillPending call)).Reachable System.Always (ctx, pending)) :
    (∀ func arg, ∃ ctx', addDeferred ctx func arg = .ok ctx' ∧
      ctx'.Represents (pending ++ [(func, arg)])) ∧
    ∀ s, ∃ r, runDeferredQueue call ctx s = .ok r ∧ Made call s r.calls r.state ∧
      Serves pending r := by
  have hctx := represents_of_reachable h
  exact ⟨fun func arg => addDeferred_eq hctx func arg, fun s => runDeferredQueue_eq call hctx s⟩

end System

/-! ## A call that fails -/

/-- Functions that return numbers, and count their calls. -/
def returning (ret : ℤ) (_ : Option Bytes) (calls : ℕ) : ℤ × ℕ := (ret, calls + 1)

/-- Of two calls the first returns zero, and the second stays in the queue. -/
theorem served_of_reachable_sample : ∃ ctx : JpContext ℤ Bytes, ∃ r,
    runDeferredQueue returning ctx 0 = .ok r ∧ Made returning 0 r.calls r.state ∧
      Serves [(0, none), (5, some (ascii "job"))] r := by
  obtain ⟨ctx₁, h₁, hctx₁⟩ := @addDeferred_eq ℤ Bytes ⟨none, none⟩ [] (.inl ⟨rfl, rfl, rfl⟩) 0 none
  obtain ⟨ctx₂, h₂, -⟩ := addDeferred_eq hctx₁ 5 (some (ascii "job"))
  have hinit : ((queueSystem returning).recorded [] (stillPending returning)).Reachable System.Always
      (⟨none, none⟩, []) := .init ⟨rfl, rfl⟩
  have hadd : ((queueSystem returning).recorded [] (stillPending returning)).Reachable
      System.Always (ctx₁, [(0, none)]) :=
    hinit.tail (a := (.add 0 none : QueueAction ℤ Bytes ℕ)) (t := (ctx₁, [(0, none)])) trivial
      ⟨h₁, rfl⟩
  have hreach := hadd.tail (a := (.add 5 (some (ascii "job")) : QueueAction ℤ Bytes ℕ))
    (t := (ctx₂, [(0, none), (5, some (ascii "job"))])) trivial ⟨h₂, rfl⟩
  exact ⟨ctx₂, (served_of_reachable hreach).2 0⟩

end JobProvenance
