import Mathlib.Tactic

/-!
# Computations that leave something behind

A computation of `EStateM` that ends early leaves the state as it is then: it is
no transaction. Of a sequence of two computations:

* `bind_eq_ok`, `bind_eq_error`: how it ends, normally or early;
* `Keeps.bind`: what both keep, whichever way they end, it keeps;
* `Yields.bind`: the same, when what the first returns matters to the second;
* `Avoids.bind`: an error that neither ends with, it does not end with;
* `Simulates.bind`: it is followed by a sequence whose parts follow its parts.
-/

namespace JobProvenance

namespace Stateful

variable {ε σ α β : Type}

/-- The state a computation leaves behind. -/
def left : EStateM.Result ε σ α → σ
  | .ok _ s => s
  | .error _ s => s

@[simp]
theorem left_ok (a : α) (s : σ) : left (.ok a s : EStateM.Result ε σ α) = s := rfl

@[simp]
theorem left_error (e : ε) (s : σ) : left (.error e s : EStateM.Result ε σ α) = s := rfl

/-- How a computation ends early, if it does. -/
def error? : EStateM.Result ε σ α → Option ε
  | .ok _ _ => none
  | .error e _ => some e

theorem eq_error_left {r : EStateM.Result ε σ α} {e : ε} (h : error? r = some e) :
    r = .error e (left r) := by
  cases r with
  | ok a s => cases h
  | error e' s => rw [Option.some.inj h, left_error]

theorem eq_ok_left {r : EStateM.Result ε σ Unit} (h : error? r = none) : r = .ok () (left r) := by
  cases r with
  | ok a s => rfl
  | error e s => cases h

variable {x : EStateM ε σ α} {f : α → EStateM ε σ β} {s s' : σ}

theorem bind_eq (x : EStateM ε σ α) (f : α → EStateM ε σ β) (s : σ) :
    (x >>= f) s = match x s with
      | .ok a s => f a s
      | .error e s => .error e s := rfl

/-- A sequence ends normally when both of its parts do. -/
theorem bind_eq_ok {b : β} : (x >>= f) s = .ok b s' ↔ ∃ a t, x s = .ok a t ∧ f a t = .ok b s' := by
  rw [bind_eq]
  cases x s <;> simp

/-- A sequence ends early when one of its parts does. -/
theorem bind_eq_error {e : ε} : (x >>= f) s = .error e s' ↔
    x s = .error e s' ∨ ∃ a t, x s = .ok a t ∧ f a t = .error e s' := by
  rw [bind_eq]
  cases x s <;> simp

theorem bind_of_ok {a : α} (h : x s = .ok a s') : (x >>= f) s = f a s' := by rw [bind_eq, h]

theorem bind_of_error {e : ε} (h : x s = .error e s') : (x >>= f) s = .error e s' := by
  rw [bind_eq, h]

@[simp]
theorem pure_apply (a : α) : (pure a : EStateM ε σ α) s = .ok a s := rfl

@[simp]
theorem throw_apply (e : ε) : (throw e : EStateM ε σ α) s = .error e s := rfl

theorem pure_eq_ok {a b : α} : (pure a : EStateM ε σ α) s = .ok b s' ↔ a = b ∧ s = s' := by
  rw [pure_apply, EStateM.Result.ok.injEq]

/-- A pair is returned. -/
theorem pair_eq_ok {a c : α} {b d : β} :
    (pure (a, b) : EStateM ε σ (α × β)) s = .ok (c, d) s' ↔ a = c ∧ b = d ∧ s = s' := by
  rw [pure_eq_ok, Prod.mk.injEq, and_assoc]

/-- A computation that leaves the state as it is. -/
def lift (x : Except ε α) : EStateM ε σ α := fun s =>
  match x with
  | .ok a => .ok a s
  | .error e => .error e s

instance monadLift : MonadLift (Except ε) (EStateM ε σ) := ⟨lift⟩

@[simp]
theorem liftM_ok (a : α) : (liftM (.ok a : Except ε α) : EStateM ε σ α) s = .ok a s := rfl

@[simp]
theorem liftM_error (e : ε) :
    (liftM (.error e : Except ε α) : EStateM ε σ α) s = .error e s := rfl

@[simp]
theorem liftM_eq_ok {x : Except ε α} {a : α} :
    (liftM x : EStateM ε σ α) s = .ok a s' ↔ x = .ok a ∧ s = s' := by
  cases x <;> simp

@[simp]
theorem liftM_eq_error {x : Except ε α} {e : ε} :
    (liftM x : EStateM ε σ α) s = .error e s' ↔ x = .error e ∧ s = s' := by
  cases x <;> simp

/-- What follows the state being read. -/
theorem get_bind (g : σ → EStateM ε σ β) (s : σ) : ((get : EStateM ε σ σ) >>= g) s = g s s := rfl

/-- What follows a computation that leaves the state as it is. -/
theorem liftM_bind (x : Except ε α) (f : α → EStateM ε σ β) (s : σ) :
    ((liftM x : EStateM ε σ α) >>= f) s = match x with
      | .ok a => f a s
      | .error e => .error e s := by
  cases x <;> rfl

/-- Calls that leave the state as it is do so one after the other. -/
theorem mapM_liftM {f : α → Except ε β} {as : List α} :
    (as.mapM fun a => (liftM (f a) : EStateM ε σ β)) = liftM (as.mapM f) := by
  induction as with
  | nil => rfl
  | cons a as ih =>
    funext s
    rw [List.mapM_cons, List.mapM_cons, ih]
    cases f a with
    | error e => rfl
    | ok b =>
      change (liftM (as.mapM f) >>= fun bs => pure (b :: bs) : EStateM ε σ (List β)) s =
        (liftM (as.mapM f >>= fun bs => pure (b :: bs)) : EStateM ε σ (List β)) s
      cases as.mapM f <;> rfl

/-- What a computation keeps: what holds before it holds after it, however it
    ends. -/
def Keeps (I : σ → Prop) (x : EStateM ε σ α) : Prop := ∀ s, I s → I (left (x s))

variable {I : σ → Prop}

theorem Keeps.pure (a : α) : Keeps I (Pure.pure a : EStateM ε σ α) := fun _ h => h

theorem Keeps.throw (e : ε) : Keeps I (MonadExcept.throw e : EStateM ε σ α) := fun _ h => h

theorem Keeps.liftM (x : Except ε α) : Keeps I (MonadLiftT.monadLift x : EStateM ε σ α) :=
  fun s h => by cases x <;> exact h

theorem Keeps.bind (hx : Keeps I x) (hf : ∀ a, Keeps I (f a)) : Keeps I (x >>= f) := fun s h => by
  have h := hx s h
  rw [bind_eq]
  cases hs : x s with
  | ok a t =>
    rw [hs] at h
    exact hf a t h
  | error e t =>
    rw [hs] at h
    exact h

/-- What follows a computation that leaves the state as it is keeps, it keeps. -/
theorem Keeps.liftM_bind {x : Except ε α} {f : α → EStateM ε σ β}
    (hf : ∀ a, x = .ok a → Keeps I (f a)) :
    Keeps I ((MonadLiftT.monadLift x : EStateM ε σ α) >>= f) := by
  cases x with
  | ok a => exact hf a rfl
  | error e => exact fun _ h => h

/-- A loop keeps what its body keeps for each element. -/
theorem Keeps.forM_mem {g : β → EStateM ε σ PUnit} {bs : List β} (hg : ∀ b ∈ bs, Keeps I (g b)) :
    Keeps I (bs.forM g) := by
  induction bs with
  | nil => exact .pure _
  | cons b bs ih =>
    rw [List.forall_mem_cons] at hg
    exact hg.1.bind fun _ => ih hg.2

/-- A loop keeps what its body keeps. -/
theorem Keeps.forM {g : β → EStateM ε σ PUnit} (hg : ∀ b, Keeps I (g b)) (bs : List β) :
    Keeps I (bs.forM g) := forM_mem fun b _ => hg b

theorem Keeps.mapM {g : β → EStateM ε σ α} (hg : ∀ b, Keeps I (g b)) (bs : List β) :
    Keeps I (bs.mapM g) := by
  induction bs with
  | nil => exact .pure _
  | cons b bs ih =>
    rw [List.mapM_cons]
    exact (hg b).bind fun _ => ih.bind fun _ => .pure _

/-- A computation never ends early with `e`. -/
def Avoids (e : ε) (x : EStateM ε σ α) : Prop := ∀ s s', x s ≠ .error e s'

section Avoids

variable {e : ε}

theorem Avoids.pure (a : α) : Avoids e (Pure.pure a : EStateM ε σ α) := fun _ _ h => by cases h

theorem Avoids.throw {e' : ε} (h : e' ≠ e) : Avoids e (MonadExcept.throw e' : EStateM ε σ α) :=
  fun _ _ heq => h (EStateM.Result.error.inj heq).1

theorem Avoids.ok (a : α) :
    Avoids e (MonadLiftT.monadLift (.ok a : Except ε α) : EStateM ε σ α) := fun _ _ h => by cases h

theorem Avoids.bind (hx : Avoids e x) (hf : ∀ a, Avoids e (f a)) : Avoids e (x >>= f) :=
  fun s s' h => by
    rcases bind_eq_error.1 h with hx' | ⟨a, t, -, hf'⟩
    · exact hx s s' hx'
    · exact hf a t s' hf'

theorem Avoids.forM_mem {g : β → EStateM ε σ PUnit} {bs : List β}
    (hg : ∀ b ∈ bs, Avoids e (g b)) : Avoids e (bs.forM g) := by
  induction bs with
  | nil => exact .pure _
  | cons b bs ih =>
    rw [List.forall_mem_cons] at hg
    exact hg.1.bind fun _ => ih hg.2

theorem Avoids.error?_ne (h : Avoids e x) (s : σ) : error? (x s) ≠ some e := fun he =>
  h s _ (eq_error_left he)

end Avoids

/-- From related states, what one computation does that ends normally the other does as
    well. -/
def Simulates {ε' τ : Type} (R : σ → τ → Prop) (x : EStateM ε σ α) (y : EStateM ε' τ α) : Prop :=
  ∀ s t, R s t → ∀ a s', x s = .ok a s' → ∃ t', y t = .ok a t' ∧ R s' t'

section Simulates

variable {ε' τ : Type} {R : σ → τ → Prop} {y : EStateM ε' τ α} {g : α → EStateM ε' τ β}

theorem Simulates.pure (a : α) :
    Simulates R (Pure.pure a : EStateM ε σ α) (Pure.pure a : EStateM ε' τ α) :=
  fun s t h b s' hs => by
    obtain ⟨rfl, rfl⟩ := pure_eq_ok.1 hs
    exact ⟨t, rfl, h⟩

/-- What never ends normally does nothing the other has to do. -/
theorem Simulates.throw (e : ε) : Simulates R (MonadExcept.throw e : EStateM ε σ α) y :=
  fun _ _ _ _ _ hs => by cases hs

theorem Simulates.bind (hx : Simulates R x y) (hf : ∀ a, Simulates R (f a) (g a)) :
    Simulates R (x >>= f) (y >>= g) := fun s t h b s' hs => by
  obtain ⟨a, s₁, hx', hf'⟩ := bind_eq_ok.1 hs
  obtain ⟨t₁, hy, h₁⟩ := hx s t h a s₁ hx'
  obtain ⟨t', hg, h'⟩ := hf a s₁ t₁ h₁ b s' hf'
  exact ⟨t', bind_eq_ok.2 ⟨a, t₁, hy, hg⟩, h'⟩

end Simulates

/-- What a computation yields: it keeps what `I` says, however it ends, and what it
    returns meets `Q`. -/
def Yields (I : σ → Prop) (Q : α → Prop) (x : EStateM ε σ α) : Prop :=
  Keeps I x ∧ ∀ s, I s → ∀ a t, x s = .ok a t → Q a

section Yields

variable {Q Q' : α → Prop} {R : β → Prop}

theorem Keeps.yields (h : Keeps I x) : Yields I (fun _ => True) x := ⟨h, fun _ _ _ _ _ => trivial⟩

theorem Yields.mono (h : Yields I Q x) (hQ : ∀ a, Q a → Q' a) : Yields I Q' x :=
  ⟨h.1, fun s hs a t hx => hQ a (h.2 s hs a t hx)⟩

theorem Yields.pure {a : α} (h : Q a) : Yields I Q (Pure.pure a : EStateM ε σ α) :=
  ⟨.pure a, fun _ _ _ _ hx => (pure_eq_ok.1 hx).1 ▸ h⟩

theorem Yields.throw (e : ε) : Yields I Q (MonadExcept.throw e : EStateM ε σ α) :=
  ⟨.throw e, fun _ _ _ _ hx => nomatch hx⟩

theorem Yields.get : Yields I I (get : EStateM ε σ σ) :=
  ⟨fun _ hs => hs, fun s hs a t hx => by obtain ⟨rfl, -⟩ := EStateM.Result.ok.inj hx; exact hs⟩

theorem Yields.liftM {x : Except ε α} (h : ∀ a, x = .ok a → Q a) :
    Yields I Q (MonadLiftT.monadLift x : EStateM ε σ α) :=
  ⟨.liftM x, fun _ _ a _ hx => h a (liftM_eq_ok.1 hx).1⟩

theorem Yields.bind (hx : Yields I Q x) (hf : ∀ a, Q a → Yields I R (f a)) :
    Yields I R (x >>= f) := by
  refine ⟨fun s hs => ?_, fun s hs b u hb => ?_⟩
  · have hkeeps := hx.1 s hs
    rw [bind_eq]
    cases hr : x s with
    | ok a t =>
      rw [hr] at hkeeps
      exact (hf a (hx.2 s hs a t hr)).1 t hkeeps
    | error e t =>
      rw [hr] at hkeeps
      exact hkeeps
  · obtain ⟨a, t, hr, hb⟩ := bind_eq_ok.1 hb
    have hkeeps := hx.1 s hs
    rw [hr] at hkeeps
    exact (hf a (hx.2 s hs a t hr)).2 t hkeeps b u hb

end Yields

end Stateful

end JobProvenance
