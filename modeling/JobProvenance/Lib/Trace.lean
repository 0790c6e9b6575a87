import JobProvenance.Lib.Stateful

/-!
# Computations that leave a trace

A computation of which only what it does matters, one event after the other. What it
learns of the world may depend on all that was done before: `ask` looks at the trace.

`Leaves` says which events a computation adds to the trace, and what it returns then,
whichever way it ends; there is a rule for each way to put computations together.
-/

namespace JobProvenance

/-- A computation that adds events to a trace. -/
abbrev Tracing (ε ev : Type) := EStateM ε (List ev)

namespace Tracing

variable {ε ev α β : Type}

/-- Does something. -/
def emit (e : ev) : Tracing ε ev Unit := fun t => .ok () (t ++ [e])

/-- Learns something, which may depend on what was done. -/
def ask (f : List ev → α) : Tracing ε ev α := fun t => .ok (f t) t

theorem emit_bind_apply (e : ev) (f : Unit → Tracing ε ev β) (t : List ev) :
    (emit e >>= f) t = f () (t ++ [e]) := rfl

theorem ask_bind_apply (g : List ev → α) (f : α → Tracing ε ev β) (t : List ev) :
    (ask g >>= f) t = f (g t) t := rfl

/-- The events a computation adds, and what it returns if it ends normally, are related. -/
def Leaves (Q : Option α → List ev → Prop) (x : Tracing ε ev α) : Prop :=
  ∀ t, (∃ a evs, x t = .ok a (t ++ evs) ∧ Q (some a) evs) ∨
    ∃ e evs, x t = .error e (t ++ evs) ∧ Q none evs

variable {x : Tracing ε ev α} {f : α → Tracing ε ev β} {P Q : Option α → List ev → Prop}
  {R : Option β → List ev → Prop}

theorem Leaves.mono (h : Leaves P x) (hPQ : ∀ r evs, P r evs → Q r evs) : Leaves Q x := by
  intro t
  rcases h t with ⟨a, evs, hx, hP⟩ | ⟨e, evs, hx, hP⟩
  · exact .inl ⟨a, evs, hx, hPQ _ _ hP⟩
  · exact .inr ⟨e, evs, hx, hPQ _ _ hP⟩

/-- What a trace is after a computation. -/
theorem Leaves.exists_left (h : Leaves Q x) (t : List ev) :
    ∃ r evs, Stateful.left (x t) = t ++ evs ∧ Q r evs := by
  rcases h t with ⟨a, evs, hx, hQ⟩ | ⟨e, evs, hx, hQ⟩
  · exact ⟨some a, evs, by rw [hx, Stateful.left_ok], hQ⟩
  · exact ⟨none, evs, by rw [hx, Stateful.left_error], hQ⟩

theorem Leaves.pure {a : α} (h : Q (some a) []) : Leaves Q (Pure.pure a : Tracing ε ev α) :=
  fun t => .inl ⟨a, [], by rw [List.append_nil]; rfl, h⟩

theorem Leaves.throw {e : ε} (h : Q none []) :
    Leaves Q (MonadExcept.throw e : Tracing ε ev α) :=
  fun t => .inr ⟨e, [], by rw [List.append_nil]; rfl, h⟩

/-- Something is computed, and nothing done. -/
theorem Leaves.liftM {y : Except ε α} (hok : ∀ a, y = .ok a → Q (some a) [])
    (herror : (∃ e, y = .error e) → Q none []) :
    Leaves Q (MonadLiftT.monadLift y : Tracing ε ev α) := by
  cases y with
  | ok a => exact Leaves.pure (hok a rfl)
  | error e => exact Leaves.throw (herror ⟨e, rfl⟩)

/-- What is done by a sequence is done by its first part, and then by the second, unless
    the first ends early. -/
theorem Leaves.bind (hx : Leaves P x)
    (hf : ∀ a evs, P (some a) evs → Leaves (fun r evs' => R r (evs ++ evs')) (f a))
    (hnone : ∀ evs, P none evs → R none evs) : Leaves R (x >>= f) := by
  intro t
  rw [Stateful.bind_eq]
  rcases hx t with ⟨a, evs, hx, hP⟩ | ⟨e, evs, hx, hP⟩
  · rw [hx]
    dsimp only
    rcases hf a evs hP (t ++ evs) with ⟨b, evs', hb, hR⟩ | ⟨e, evs', hb, hR⟩
    · exact .inl ⟨b, evs ++ evs', by rw [hb, List.append_assoc], hR⟩
    · exact .inr ⟨e, evs ++ evs', by rw [hb, List.append_assoc], hR⟩
  · rw [hx]
    exact .inr ⟨e, evs, rfl, hnone evs hP⟩

/-- Something is done first. -/
theorem Leaves.emit_bind {e : ev} {f : Unit → Tracing ε ev β}
    (h : Leaves (fun r evs => R r (e :: evs)) (f ())) : Leaves R (emit e >>= f) := by
  refine Leaves.bind (P := fun r evs => r.isSome ∧ evs = [e]) (fun t => .inl ⟨(), [e], rfl, rfl, rfl⟩)
    (fun _ evs hevs => ?_) fun _ h => absurd h.1 Bool.false_ne_true
  rw [hevs.2]
  exact h

/-- Something is learned first. -/
theorem Leaves.ask_bind {g : List ev → α} (h : ∀ t, Leaves R (f (g t))) :
    Leaves R (ask g >>= f) := fun t => h t t

/-- Something is computed first. -/
theorem Leaves.liftM_bind {y : Except ε α} (hok : ∀ a, y = .ok a → Leaves R (f a))
    (herror : (∃ e, y = .error e) → R none []) :
    Leaves R ((MonadLiftT.monadLift y : Tracing ε ev α) >>= f) := by
  cases y with
  | ok a => exact hok a rfl
  | error e => exact Leaves.throw (herror ⟨e, rfl⟩)

end Tracing

end JobProvenance
