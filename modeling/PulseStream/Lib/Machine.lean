import Mathlib.Logic.Basic

/-!
# Machines with a partial step function

A machine is a step function `S → A → Option S`: `none` says that the action is not enabled.
`run` executes a list of actions and `Reaches` is reachability by some list. `run_invariant` is the
only induction on runs. From it come `Reaches.invariant` for a property of every state,
`Reaches.relates` for a relation between an earlier and a later state, and `Reaches.project` for
a machine seen through a map to another one.
-/

namespace Machine

variable {S A T B : Type*}

/-- The state after a list of actions, `none` when one of them is not enabled. -/
def run (step : S → A → Option S) : S → List A → Option S
  | s, [] => some s
  | s, a :: as => (step s a).bind fun s' => run step s' as

/-- Some list of actions leads from `s` to `s'`. -/
def Reaches (step : S → A → Option S) (s s' : S) : Prop := ∃ as, run step s as = some s'

variable {step : S → A → Option S} {s s' s'' : S}

theorem run_cons_eq_some {a : A} {as : List A} :
    run step s (a :: as) = some s'' ↔ ∃ s', step s a = some s' ∧ run step s' as = some s'' := by
  simp only [run, Option.bind_eq_some_iff]

theorem run_append {as bs : List A} (ha : run step s as = some s')
    (hb : run step s' bs = some s'') : run step s (as ++ bs) = some s'' := by
  induction as generalizing s with
  | nil =>
    obtain rfl : s = s' := by simpa [run] using ha
    exact hb
  | cons a as ih =>
    obtain ⟨t, ht, hrun⟩ := run_cons_eq_some.mp ha
    exact run_cons_eq_some.mpr ⟨t, ht, ih hrun⟩

theorem run_append_eq_some {as bs : List A} :
    run step s (as ++ bs) = some s'' ↔
      ∃ s', run step s as = some s' ∧ run step s' bs = some s'' := by
  refine ⟨fun h => ?_, fun ⟨s', ha, hb⟩ => run_append ha hb⟩
  induction as generalizing s with
  | nil => exact ⟨s, rfl, h⟩
  | cons a as ih =>
    obtain ⟨t, ht, hrun⟩ := run_cons_eq_some.mp h
    obtain ⟨s', has, hbs⟩ := ih hrun
    exact ⟨s', run_cons_eq_some.mpr ⟨t, ht, has⟩, hbs⟩

theorem Reaches.refl (s : S) : Reaches step s s := ⟨[], rfl⟩

theorem Reaches.single {a : A} (h : step s a = some s') : Reaches step s s' :=
  ⟨[a], run_cons_eq_some.mpr ⟨s', h, rfl⟩⟩

theorem Reaches.trans (h : Reaches step s s') (h' : Reaches step s' s'') :
    Reaches step s s'' := by
  obtain ⟨as, ha⟩ := h
  obtain ⟨bs, hb⟩ := h'
  exact ⟨as ++ bs, run_append ha hb⟩

theorem Reaches.tail {a : A} (h : Reaches step s s') (ha : step s' a = some s'') :
    Reaches step s s'' := h.trans (.single ha)

/-- **Run rule.** What holds at the start and is kept by every step of a run holds at its end; the
actions so far are part of it. -/
theorem run_invariant {P : List A → S → Prop} (hs : P [] s)
    (hstep : ∀ as t a t', run step s as = some t → P as t → step t a = some t' → P (as ++ [a]) t')
    {as : List A} (h : run step s as = some s') : P as s' := by
  -- `as` has been run already, `bs` is still to come
  suffices key : ∀ (bs as : List A) (t : S), run step s as = some t → P as t →
      run step t bs = some s' → P (as ++ bs) s' by
    exact key as [] s rfl hs h
  intro bs
  induction bs with
  | nil =>
    intro as t _ hP hrun
    obtain rfl : t = s' := by simpa [run] using hrun
    rwa [List.append_nil]
  | cons b bs ih =>
    intro as t ht hP hrun
    obtain ⟨u, hu, hrun⟩ := run_cons_eq_some.mp hrun
    have hnext : run step s (as ++ [b]) = some u :=
      run_append ht (run_cons_eq_some.mpr ⟨u, hu, rfl⟩)
    have hP' := ih (as ++ [b]) u hnext (hstep as t b u ht hP hu) hrun
    rwa [List.append_assoc] at hP'

/-- **Invariant rule.** What holds at the start and is kept by every step from a reachable state
holds in every reachable state. -/
theorem Reaches.invariant {P : S → Prop} (hs : P s)
    (hstep : ∀ t a t', Reaches step s t → P t → step t a = some t' → P t')
    (h : Reaches step s s') : P s' := by
  obtain ⟨as, ha⟩ := h
  exact run_invariant (P := fun _ t => P t) hs
    (fun bs t a t' hrun hP ht' => hstep t a t' ⟨bs, hrun⟩ hP ht') ha

/-- **Relation rule.** A reflexive and transitive relation that every step respects relates the
two ends of every run. The invariant `P` is available at every step. -/
theorem Reaches.relates {P : S → Prop} {R : S → S → Prop} (hrefl : ∀ t, R t t)
    (htrans : ∀ t u v, R t u → R u v → R t v)
    (hP : ∀ t a t', P t → step t a = some t' → P t')
    (hstep : ∀ t a t', P t → step t a = some t' → R t t')
    (hs : P s) (h : Reaches step s s') : R s s' := by
  have key : P s' ∧ R s s' := by
    refine h.invariant (P := fun t => P t ∧ R s t) ⟨hs, hrefl s⟩ ?_
    intro t a t' _ ht ha
    exact ⟨hP t a t' ht.1 ha, htrans _ _ _ ht.2 (hstep t a t' ht.1 ha)⟩
  exact key.2

/-- **Projection rule.** When every step of a machine is seen through `f` as a run of another
machine, so is every run. -/
theorem Reaches.project {step' : T → B → Option T} (f : S → T)
    (hstep : ∀ t a t', step t a = some t' → Reaches step' (f t) (f t'))
    (h : Reaches step s s') : Reaches step' (f s) (f s') := by
  refine h.invariant (P := fun t => Reaches step' (f s) (f t)) (.refl _) ?_
  intro t a t' _ ht ha
  exact ht.trans (hstep t a t' ha)

end Machine
