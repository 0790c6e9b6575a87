import Mathlib.Data.List.Basic
import Mathlib.Tactic

/-!
# One witness or several

When a list has one element that meets all of some conditions if and only if it
has, for each of other conditions, an element that meets it
(`exists_forall_iff_forall_exists`), and when two conjunctions over independent
parts are the same (`and_forall_iff`).
-/

namespace JobProvenance

variable {α β ι : Type*}

/-- One element meets all of the conditions `p` exactly when every condition `q`
    is met by an element: whatever meets all of `p` meets all of `q`, and there
    is a condition of `q` that implies all of `p`. -/
theorem exists_forall_iff_forall_exists {cs : List ι} {p q : ι → α → Prop} :
    (∀ as : List α, (∃ a ∈ as, ∀ c ∈ cs, p c a) ↔ ∀ c ∈ cs, ∃ a ∈ as, q c a) ↔
      (∀ a, (∀ c ∈ cs, p c a) → ∀ c ∈ cs, q c a) ∧ ∃ c ∈ cs, ∀ a, q c a → ∀ d ∈ cs, p d a := by
  constructor
  · intro h
    refine ⟨fun a ha c hc => ?_, ?_⟩
    · obtain ⟨b, hb, hq⟩ := (h [a]).1 ⟨a, List.mem_singleton_self a, ha⟩ c hc
      rwa [List.mem_singleton.1 hb] at hq
    · -- otherwise each condition of `q` is met by an element that misses one of
      -- `p`, and a list of such elements tells the two sides apart
      by_contra! hne
      obtain ⟨c₀, hc₀⟩ : ∃ c₀, c₀ ∈ cs := by
        refine List.exists_mem_of_ne_nil cs ?_
        rintro rfl
        simpa using h []
      have : Nonempty α := ⟨(hne c₀ hc₀).choose⟩
      choose! b hq d hd hp using hne
      obtain ⟨_, hb, hall⟩ := (h (cs.map b)).2 fun c hc => ⟨b c, List.mem_map_of_mem hc, hq c hc⟩
      obtain ⟨c, hc, rfl⟩ := List.mem_map.1 hb
      exact hp c hc (hall _ (hd c hc))
  · rintro ⟨hpq, c, hc, hqp⟩ as
    constructor
    · rintro ⟨a, ha, hp⟩ d hd
      exact ⟨a, ha, hpq a hp d hd⟩
    · intro h
      obtain ⟨a, ha, hq⟩ := h c hc
      exact ⟨a, ha, hqp a hq⟩

/-- Two conjunctions, of a condition on `a` and one on each `f i`, are the same
    exactly when neither is ever met, or they are the same part by part. -/
theorem and_forall_iff [DecidableEq ι] {s : Set ι} {p p' : α → Prop} {q q' : ι → β → Prop} :
    (∀ (a : α) (f : ι → β), (p a ∧ ∀ i ∈ s, q i (f i)) ↔ (p' a ∧ ∀ i ∈ s, q' i (f i))) ↔
      (¬∃ (a : α) (f : ι → β), p a ∧ ∀ i ∈ s, q i (f i)) ∧
        (¬∃ (a : α) (f : ι → β), p' a ∧ ∀ i ∈ s, q' i (f i)) ∨
      (∀ a, p a ↔ p' a) ∧ ∀ i ∈ s, ∀ b, q i b ↔ q' i b := by
  constructor
  · intro h
    by_cases hsat : ∃ (a : α) (f : ι → β), p a ∧ ∀ i ∈ s, q i (f i)
    · obtain ⟨a, f, ha, hf⟩ := hsat
      obtain ⟨ha', hf'⟩ := (h a f).1 ⟨ha, hf⟩
      refine .inr ⟨fun b => ?_, fun i hi b => ?_⟩
      · simpa only [and_iff_left hf, and_iff_left hf'] using h b f
      · -- only the part `i` of the met conjunction is replaced
        have hupd : ∀ {r : ι → β → Prop}, (∀ j ∈ s, r j (f j)) →
            ((∀ j ∈ s, r j (Function.update f i b j)) ↔ r i b) := by
          intro r hr
          refine ⟨fun hj => by simpa using hj i hi, fun hb j _ => ?_⟩
          by_cases hj : j = i
          · rw [hj, Function.update_self]
            exact hb
          · rw [Function.update_of_ne hj]
            exact hr j ‹_›
        simpa only [and_iff_right ha, and_iff_right ha', hupd hf, hupd hf'] using
          h a (Function.update f i b)
    · refine .inl ⟨hsat, ?_⟩
      rintro ⟨a, f, hmet⟩
      exact hsat ⟨a, f, (h a f).2 hmet⟩
  · rintro (⟨hno, hno'⟩ | ⟨hp, hq⟩) a f
    · exact iff_of_false (fun h => hno ⟨a, f, h⟩) fun h => hno' ⟨a, f, h⟩
    · rw [hp a]
      exact and_congr_right fun _ => forall₂_congr fun i hi => hq i hi (f i)

end JobProvenance
