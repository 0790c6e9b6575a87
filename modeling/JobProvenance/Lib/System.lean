import Mathlib.Tactic

/-!
# Transition systems

A system of states and labelled steps, run under a condition on its steps:
`Steps` are the runs all of whose steps meet the condition, `Reachable` the
states such a run reaches from an initial one.

* `Steps.preserves`: what every step preserves, a run does, and
  `Steps.exists_loss`: what a run does not preserve, a step of it does not;
* `Reachable.invariant`: what holds initially and is preserved by every step
  holds in every reachable state;
* `Reachable.simulated`: a system is reached where one that follows its steps is;
* `Steps.of_foldlM`: a run that is computed is one;
* `recorded`: a system that keeps a record of its steps, which changes nothing
  about its runs (`reachable_iff_recorded`).
-/

namespace JobProvenance

/-- A transition system on `σ`, its steps labelled by `α`. -/
structure System (σ α : Type*) where
  /-- The initial states. -/
  init : σ → Prop
  /-- The steps. -/
  step : σ → α → σ → Prop

namespace System

variable {σ α : Type*} (S : System σ α) (ok : σ → α → Prop)

/-- A run whose steps all meet `ok`, a condition on the state before the step
    and its label. -/
inductive Steps : σ → σ → Prop
  | refl (s : σ) : Steps s s
  | tail {s t u : σ} {a : α} : Steps s t → ok t a → S.step t a u → Steps s u

/-- The states reached by the runs whose steps all meet `ok`. -/
def Reachable (s : σ) : Prop := ∃ s₀, S.init s₀ ∧ S.Steps ok s₀ s

/-- No condition on the steps. -/
def Always : σ → α → Prop := fun _ _ => True

instance (s : σ) (a : α) : Decidable (Always s a) := inferInstanceAs (Decidable True)

variable {S ok}

theorem Steps.trans {s t u : σ} (h : S.Steps ok s t) (h' : S.Steps ok t u) : S.Steps ok s u := by
  induction h' with
  | refl => exact h
  | tail _ hok hst ih => exact ih.tail hok hst

/-- A run preserves what each of its steps preserves. -/
theorem Steps.preserves {I : σ → Prop} {s t : σ} (h : S.Steps ok s t)
    (hI : ∀ s a t, I s → ok s a → S.step s a t → I t) (hs : I s) : I t := by
  induction h with
  | refl => exact hs
  | tail _ hok hst ih => exact hI _ _ _ ih hok hst

/-- A run that loses something has a first step that loses it. -/
theorem Steps.exists_loss {I : σ → Prop} {s t : σ} (h : S.Steps ok s t) (hs : I s) :
    I t ∨ ∃ u a v, S.Steps ok s u ∧ I u ∧ ok u a ∧ S.step u a v ∧ ¬I v ∧ S.Steps ok v t := by
  induction h with
  | refl => exact .inl hs
  | @tail t u a hst hok hstep ih =>
    rcases ih with ht | ⟨u', a', v', hsu, hu, hok', hstep', hv, hvt⟩
    · by_cases hu : I u
      · exact .inl hu
      · exact .inr ⟨t, a, u, hst, ht, hok, hstep, hu, .refl u⟩
    · exact .inr ⟨u', a', v', hsu, hu, hok', hstep', hv, hvt.tail hok hstep⟩

/-- A run computed step by step, each step after checking its condition. -/
theorem Steps.of_foldlM [∀ s a, Decidable (ok s a)] {f : σ → α → Option σ}
    (hf : ∀ s a t, f s a = some t → S.step s a t) {actions : List α} {s t : σ}
    (h : actions.foldlM (fun s a => if ok s a then f s a else none) s = some t) :
    S.Steps ok s t := by
  induction actions using List.reverseRecOn generalizing t with
  | nil => exact Option.some.inj h ▸ .refl s
  | append_singleton actions a ih =>
    rw [List.foldlM_append] at h
    obtain ⟨u, hu, h⟩ := Option.bind_eq_some_iff.1 h
    simp only [List.foldlM_cons, List.foldlM_nil, bind_pure] at h
    split_ifs at h with hok
    exact (ih hu).tail hok (hf _ _ _ h)

theorem Reachable.init {s : σ} (h : S.init s) : S.Reachable ok s := ⟨s, h, .refl s⟩

theorem Reachable.tail {s t : σ} {a : α} (h : S.Reachable ok s) (hok : ok s a)
    (hst : S.step s a t) : S.Reachable ok t :=
  let ⟨s₀, h₀, hs⟩ := h
  ⟨s₀, h₀, hs.tail hok hst⟩

theorem Reachable.steps {s t : σ} (h : S.Reachable ok s) (hst : S.Steps ok s t) :
    S.Reachable ok t :=
  let ⟨s₀, h₀, hs⟩ := h
  ⟨s₀, h₀, hs.trans hst⟩

/-- Reachability under a condition implies reachability under a weaker one. -/
theorem Reachable.mono {ok' : σ → α → Prop} {s : σ} (h : S.Reachable ok s)
    (hok : ∀ s a, ok s a → ok' s a) : S.Reachable ok' s := by
  obtain ⟨s₀, h₀, hs⟩ := h
  refine ⟨s₀, h₀, ?_⟩
  induction hs with
  | refl => exact .refl _
  | tail _ ha hst ih => exact ih.tail (hok _ _ ha) hst

/-- What holds initially and is preserved by every step is invariant. -/
theorem Reachable.invariant {I : σ → Prop} {s : σ} (h : S.Reachable ok s)
    (h₀ : ∀ s, S.init s → I s) (hI : ∀ s a t, I s → ok s a → S.step s a t → I t) : I s :=
  let ⟨_, hs₀, hs⟩ := h
  hs.preserves hI (h₀ _ hs₀)

/-- What one system does another does as well that follows each of its steps. -/
theorem Reachable.simulated {τ β : Type*} {T : System τ β} {ok' : τ → β → Prop} {R : σ → τ → Prop}
    {s : σ} (h : S.Reachable ok s) (h₀ : ∀ s, S.init s → ∃ t, T.init t ∧ R s t)
    (hstep : ∀ s t a s', R s t → ok s a → S.step s a s' →
      ∃ b t', ok' t b ∧ T.step t b t' ∧ R s' t') : ∃ t, T.Reachable ok' t ∧ R s t := by
  refine @Reachable.invariant _ _ _ _ (fun s => ∃ t, T.Reachable ok' t ∧ R s t) _ h
    (fun s hs => ?_) fun s a s' hI ha hst => ?_
  · obtain ⟨t, ht, hR⟩ := h₀ s hs
    exact ⟨t, .init ht, hR⟩
  · obtain ⟨t, ht, hR⟩ := hI
    obtain ⟨b, t', hb, hst', hR'⟩ := hstep s t a s' hR ha hst
    exact ⟨t', ht.tail hb hst', hR'⟩

/-! ## Records -/

section Recorded

variable {γ : Type*} (S) (g₀ : γ) (record : σ → α → σ → γ → γ)

/-- The system that keeps a record of its steps besides. -/
def recorded : System (σ × γ) α where
  init s := S.init s.1 ∧ s.2 = g₀
  step s a t := S.step s.1 a t.1 ∧ t.2 = record s.1 a t.1 s.2

variable {S g₀ record}

/-- Every run can be recorded. -/
theorem Steps.recorded {s t : σ} (h : S.Steps ok s t) (g : γ) :
    ∃ g', (S.recorded g₀ record).Steps (fun s a => ok s.1 a) (s, g) (t, g') := by
  induction h with
  | refl => exact ⟨g, .refl _⟩
  | @tail t u a _ hok hst ih =>
    obtain ⟨g', ih⟩ := ih
    exact ⟨record t a u g', ih.tail hok ⟨hst, rfl⟩⟩

/-- A run that is recorded is a run. -/
theorem Steps.of_recorded {s t : σ × γ}
    (h : (S.recorded g₀ record).Steps (fun s a => ok s.1 a) s t) : S.Steps ok s.1 t.1 := by
  induction h with
  | refl => exact .refl _
  | tail _ hok hst ih => exact ih.tail hok hst.1

theorem reachable_iff_recorded {s : σ} : S.Reachable ok s ↔
    ∃ g, (S.recorded g₀ record).Reachable (fun s a => ok s.1 a) (s, g) := by
  constructor
  · rintro ⟨s₀, h₀, h⟩
    obtain ⟨g, h⟩ := h.recorded g₀
    exact ⟨g, (s₀, g₀), ⟨h₀, rfl⟩, h⟩
  · rintro ⟨g, s₀, h₀, h⟩
    exact ⟨s₀.1, h₀.1, h.of_recorded⟩

/-- The step of a system that is computed, and its record. -/
def recordedStep (record : σ → α → σ → γ → γ) (f : σ → α → Option σ) (s : σ × γ) (a : α) :
    Option (σ × γ) :=
  (f s.1 a).map fun t => (t, record s.1 a t s.2)

theorem recordedStep_eq_some {f : σ → α → Option σ} {s t : σ × γ} {a : α} :
    recordedStep record f s a = some t ↔ f s.1 a = some t.1 ∧ t.2 = record s.1 a t.1 s.2 := by
  rw [recordedStep, Option.map_eq_some_iff]
  constructor
  · rintro ⟨u, hu, rfl⟩
    exact ⟨hu, rfl⟩
  · rintro ⟨hu, hg⟩
    exact ⟨t.1, hu, Prod.ext rfl hg.symm⟩

end Recorded

end System

end JobProvenance
