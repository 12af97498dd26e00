import PulseStream.Lib.Machine

/-!
# Refinement of a relation by a machine

A run of a machine is observed through `emit`: what a step shows of itself, as a list of events. A
specification says which events may happen in an abstract state, and what they lead to; `Applies` is
a run of it. A machine refines the specification when each of its steps, seen through an abstraction
function, applies the events it shows: then so does every run (`run_refines`).
-/

namespace Machine

variable {S A E T : Type*}

/-- What a run shows, up to the first action that is not enabled. -/
def trace (step : S → A → Option S) (emit : S → A → S → List E) : S → List A → List E
  | _, [] => []
  | s, a :: as =>
    match step s a with
    | none => []
    | some s' => emit s a s' ++ trace step emit s' as

/-- The events lead from `q` to `q'`, one after the other. -/
def Applies (apply : T → E → T → Prop) : T → List E → T → Prop
  | q, [], q' => q = q'
  | q, e :: es, q' => ∃ r, apply q e r ∧ Applies apply r es q'

variable {step : S → A → Option S} {emit : S → A → S → List E} {apply : T → E → T → Prop}
  {s s' : S} {as bs : List A}

theorem trace_append (h : run step s as = some s') :
    trace step emit s (as ++ bs) = trace step emit s as ++ trace step emit s' bs := by
  induction as generalizing s with
  | nil =>
    obtain rfl : s = s' := by simpa [run] using h
    rfl
  | cons a as ih =>
    obtain ⟨t, ht, hrun⟩ := run_cons_eq_some.mp h
    simp only [List.cons_append, trace, ht, ih hrun, List.append_assoc]

theorem trace_single {a : A} (h : step s a = some s') :
    trace step emit s [a] = emit s a s' := by
  simp only [trace, h, List.append_nil]

/-- **Trace rule.** What holds at the start with nothing shown, and is kept by every step with what
it shows, holds at the end of every run. -/
theorem trace_invariant {P : List E → S → Prop} (hs : P [] s)
    (hstep : ∀ H t a t', Reaches step s t → P H t → step t a = some t' → P (H ++ emit t a t') t')
    (h : run step s as = some s') : P (trace step emit s as) s' := by
  refine run_invariant (P := fun bs t => P (trace step emit s bs) t) hs ?_ h
  intro bs t a t' hrun hP ha
  rw [trace_append hrun, trace_single ha]
  exact hstep _ t a t' ⟨bs, hrun⟩ hP ha

theorem Applies.append {q q' q'' : T} {es es' : List E} (h : Applies apply q es q')
    (h' : Applies apply q' es' q'') : Applies apply q (es ++ es') q'' := by
  induction es generalizing q with
  | nil =>
    obtain rfl : q = q' := h
    exact h'
  | cons e es ih =>
    obtain ⟨r, he, hes⟩ := h
    exact ⟨r, he, ih hes⟩

theorem Applies.single {q q' : T} {e : E} (h : apply q e q') : Applies apply q [e] q' :=
  ⟨q', h, rfl⟩

theorem Applies.map {E' : Type*} {f : E' → E} {q q' : T} {es : List E'}
    (h : Applies (fun q e => apply q (f e)) q es q') : Applies apply q (es.map f) q' := by
  induction es generalizing q with
  | nil => exact h
  | cons e es ih =>
    obtain ⟨r, he, hes⟩ := h
    exact ⟨r, he, ih hes⟩

/-- **Refinement rule.** -/
theorem run_refines (abs : S → T)
    (hstep : ∀ t a t', Reaches step s t → step t a = some t' →
      Applies apply (abs t) (emit t a t') (abs t'))
    (h : run step s as = some s') : Applies apply (abs s) (trace step emit s as) (abs s') :=
  trace_invariant (P := fun H t => Applies apply (abs s) H (abs t)) rfl
    (fun _ t a t' ht hH ha => hH.append (hstep t a t' ht ha)) h

end Machine
