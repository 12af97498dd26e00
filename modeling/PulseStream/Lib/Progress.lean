import Mathlib.Data.Nat.Notation
import PulseStream.Lib.Machine

/-!
# Termination and progress of machines

`variant` is the rule for "something good can still happen": as long as it has not, some run makes a
measure smaller (`Reaches.variant`). `Converges` is the rule for "it cannot fail to happen": every
step makes the measure smaller, and a state without an enabled step is done. Then every run is
finite, with the measure as a bound, and can be continued until it is done.
-/

namespace Machine

variable {S A : Type*} {step : S → A → Option S} {P Done : S → Prop} {μ : S → ℕ} {s s' : S}

/-- **Variant rule.** As long as it is not done, there is something smaller. -/
theorem variant (h : ∀ t, P t → ¬ Done t → ∃ t', P t' ∧ μ t' < μ t) (hs : P s) :
    ∃ s', P s' ∧ Done s' := by
  induction hn : μ s using Nat.strongRecOn generalizing s with
  | ind n ih =>
    by_cases hdone : Done s
    · exact ⟨s, hs, hdone⟩
    · obtain ⟨t, ht, hlt⟩ := h s hs hdone
      exact ih (μ t) (hn ▸ hlt) ht rfl

theorem Reaches.variant
    (h : ∀ t, P t → ¬ Done t → ∃ t', Reaches step t t' ∧ P t' ∧ μ t' < μ t) (hs : P s) :
    ∃ s', Reaches step s s' ∧ P s' ∧ Done s' := by
  have key : ∃ s', (Reaches step s s' ∧ P s') ∧ Done s' := by
    refine Machine.variant (P := fun t => Reaches step s t ∧ P t) (μ := μ) ?_ ⟨.refl s, hs⟩
    rintro t ⟨hst, ht⟩ hdone
    obtain ⟨t', htt', ht', hlt⟩ := h t ht hdone
    exact ⟨t', ⟨hst.trans htt', ht'⟩, hlt⟩
  obtain ⟨s', ⟨hreach, hs'⟩, hdone⟩ := key
  exact ⟨s', hreach, hs', hdone⟩

/-- Every step from a state with `P` makes `μ` smaller, and only what is done is stuck. -/
structure Converges (step : S → A → Option S) (P Done : S → Prop) (μ : S → ℕ) : Prop where
  keeps : ∀ t a t', P t → step t a = some t' → P t'
  decreases : ∀ t a t', P t → step t a = some t' → μ t' < μ t
  progress : ∀ t, P t → ¬ Done t → ∃ a t', step t a = some t'

namespace Converges

variable (h : Converges step P Done μ)

include h

theorem length_le (hs : P s) {as : List A} (hrun : run step s as = some s') :
    as.length + μ s' ≤ μ s := by
  have key : P s' ∧ as.length + μ s' ≤ μ s := by
    refine run_invariant (P := fun as t => P t ∧ as.length + μ t ≤ μ s) ⟨hs, by simp⟩ ?_ hrun
    intro as t a t' _ ht ha
    have hlt := h.decreases t a t' ht.1 ha
    refine ⟨h.keeps t a t' ht.1 ha, ?_⟩
    rw [List.length_append, List.length_singleton]
    omega
  exact key.2

/-- Wherever a run has come to, it can be continued until it is done. -/
theorem finishes (hs : P s) : ∃ s', Reaches step s s' ∧ P s' ∧ Done s' := by
  refine Reaches.variant (μ := μ) (fun t ht hdone => ?_) hs
  obtain ⟨a, t', ha⟩ := h.progress t ht hdone
  exact ⟨t', .single ha, h.keeps t a t' ht ha, h.decreases t a t' ht ha⟩

end Converges

end Machine
