import PulseStream.System.LostClaims

/-!
# How often an event is processed

Processing is at least once: a worker that crashes after the processor has succeeded leaves the
event to be delivered again. It is no more often than the row says: a task asks the processor once,
so the successes of an event are no more than its deliveries, and a processed event has had at least
one (`processings_le`).
-/

namespace PulseStream

open Machine

namespace Worker

variable {w w' : Worker} {a : WorkerAct}

/-- Task `i` was spawned, and has left the processor. -/
def Past (w : Worker) (i : ℕ) : Prop :=
  i < w.nextTask ∧ ∀ t ∈ w.tasks, t.id = i → t.stage ≠ .processing

theorem Effect.nextTask_le (h : Effect w w') : w.nextTask ≤ w'.nextTask := by
  cases h with
  | spawned hphase => exact Nat.le_succ _
  | _ => exact le_rfl

theorem Steps.past (h : Steps w a w') {i : ℕ} (hpast : w.Past i) : w'.Past i := by
  refine ⟨hpast.1.trans_le h.effect.nextTask_le, fun t ht hid => ?_⟩
  cases h.tasks ht with
  | kept ht => exact hpast.2 t ht hid
  | spawned hphase => exact absurd hid hpast.1.ne'
  | ended ht hover =>
    intro hstage
    simp only at hstage
    simp [Task.isOver, hstage] at hover
  | processed ht | sent ht hstage => simp

theorem past_processed (hnum : w.Numbered) {i : ℕ} {t : Task} (ht : w.task i = some t) :
    (w.setStage t .processed).Past i := by
  obtain rfl := task_id ht
  refine ⟨hnum.fresh t (task_mem ht), fun t' ht' hid => ?_⟩
  obtain ⟨t₀, -, -, hnew | ⟨rfl, hother⟩⟩ := Table.mem_put ht'
  · rw [List.mem_singleton.mp hnew]
    simp
  · exact absurd hid.symm (hother { t with stage := .processed } (List.mem_singleton.mpr rfl))

theorem Steps.record (h : Steps w a w') (k : ℕ) :
    w.record k a = [] ∨ ∃ i t, w.task i = some t ∧ t.stage = .processing ∧
      w.record k a = [⟨k, i, t.claim.event.id⟩] ∧ w' = w.setStage t .processed := by
  cases h with
  | @processOk i t ht hstage => exact .inr ⟨i, t, ht, hstage, by simp [Worker.record, ht], rfl⟩
  | _ => exact .inl rfl

end Worker

namespace System

variable {F : Type} [SerdeJson F] {s s' : System} {a : SystemAct} {clock : Timestamp}
  {acts : List SystemAct} {k i : ℕ}

/-- No task has succeeded twice, and those that have succeeded are past. -/
structure Processings (s : System) : Prop where
  distinct : (s.done.map fun x => (x.worker, x.task)).Nodup
  past : ∀ x ∈ s.done, ∃ w, s.workers[x.worker]? = some w ∧ w.Past x.task

theorem processings_step (hs : s.Reachable) (h : Processings s) (hstep : s.step a = some s') :
    Processings s' := by
  cases step_spec hstep with
  | store hown hact => exact ⟨h.distinct, h.past⟩
  | start hpos =>
    refine ⟨h.distinct, fun x hx => ?_⟩
    obtain ⟨w, hw, hpast⟩ := h.past x hx
    exact ⟨w, by rwa [List.getElem?_append_left (List.getElem?_eq_some_iff.mp hw).1], hpast⟩
  | @worker k b w w' db hw hlive hw' hdb =>
    have hlt := (List.getElem?_eq_some_iff.mp hw).1
    have hself : (s.workers.set k w')[k]? = some w' := List.getElem?_set_self hlt
    have hold : ∀ x ∈ s.done, ∃ u, (s.workers.set k w')[x.worker]? = some u ∧ u.Past x.task := by
      intro x hx
      obtain ⟨u, hu, hpast⟩ := h.past x hx
      by_cases hk : k = x.worker
      · subst hk
        obtain rfl := Option.some.inj (hw.symm.trans hu)
        exact ⟨w', hself, hw'.past hpast⟩
      · exact ⟨u, (List.getElem?_set_ne hk).trans hu, hpast⟩
    rcases hw'.record k with hnone | ⟨i, t, ht, hstage, hone, rfl⟩
    · refine ⟨?_, ?_⟩ <;> rw [hnone, List.append_nil]
      · exact h.distinct
      · exact hold
    · refine ⟨?_, fun x hx => ?_⟩
      · rw [hone, List.map_append, List.map_singleton]
        refine List.Nodup.append h.distinct (List.nodup_singleton _) ?_
        -- a task that has succeeded is not with the processor
        intro key hkey hnew
        obtain rfl := List.mem_singleton.mp hnew
        obtain ⟨x, hx, hxi⟩ := List.mem_map.mp hkey
        obtain ⟨hxk, rfl⟩ := Prod.mk.inj hxi
        obtain ⟨u, hu, hpast⟩ := h.past x hx
        rw [hxk] at hu
        obtain rfl := Option.some.inj (hw.symm.trans hu)
        exact hpast.2 t (Worker.task_mem ht) (Worker.task_id ht) hstage
      · rcases List.mem_append.mp hx with hx | hnew
        · exact hold x hx
        · rw [hone] at hnew
          obtain rfl := List.mem_singleton.mp hnew
          exact ⟨_, hself, Worker.past_processed (hs.numbered hw) ht⟩

theorem Reachable.processings (h : s.Reachable) : Processings s := by
  obtain ⟨clock, hs⟩ := h
  have hempty : Processings (empty clock) := ⟨List.nodup_nil, fun x hx => (by cases hx)⟩
  refine hs.invariant hempty ?_
  intro t a t' ht hP ha
  exact processings_step ⟨clock, ht⟩ hP ha

theorem done_le (h : run step (empty clock) acts = some s) {r : Row} (hr : r ∈ s.db.events) :
    s.done.countP (fun x => x.event = r.eventId) ≤ r.deliveryAttempts.toNat := by
  have hs : s.Reachable := ⟨clock, acts, h⟩
  set mine := s.done.filter fun x => x.event = r.eventId with hmine
  have hmem : ∀ x ∈ mine, x ∈ s.done ∧ x.event = r.eventId := by
    intro x hx
    obtain ⟨hx, hid⟩ := List.mem_filter.mp hx
    exact ⟨hx, by simpa using hid⟩
  have hnodup : mine.Nodup :=
    List.Nodup.of_map _ (hs.processings.distinct.sublist (List.filter_sublist.map _))
  calc s.done.countP (fun x => x.event = r.eventId)
      = mine.toFinset.card := by
        rw [List.toFinset_card_of_nodup hnodup, List.countP_eq_length_filter]
    _ ≤ (Finset.Icc 1 r.deliveryAttempts.toNat).card := by
        refine Finset.card_le_card_of_forall_subsingleton (fun x n => ∃ claim,
          TaskOf acts s x.worker x.task claim ∧ claim.delivery = (r.eventId, n)) ?_ ?_
        · intro x hx
          obtain ⟨hx, hid⟩ := hmem x (List.mem_toFinset.mp hx)
          obtain ⟨claim, htask, hclaim⟩ := run_done h x hx
          have hevent : claim.event.id = r.eventId := hclaim.trans hid
          exact ⟨claim.attempt, (run_delivered h).attempt_mem hs hr (htask.delivery h) hevent,
            claim, htask, Prod.ext hevent rfl⟩
        · rintro n - x ⟨hx, claim, htask, hkey⟩ y ⟨hy, claim', htask', hkey'⟩
          obtain ⟨hk, hi⟩ := htask.unique h htask' (hkey.trans hkey'.symm)
          exact List.inj_on_of_nodup_map hs.processings.distinct
            (hmem x (List.mem_toFinset.mp hx)).1 (hmem y (List.mem_toFinset.mp hy)).1
            (Prod.ext hk hi)
    _ = r.deliveryAttempts.toNat := by rw [Nat.card_Icc]; omega

/-- **Processings.** Over all workers and whatever crashes, no task succeeds twice, the processor
succeeds on an event no more often than its row counts deliveries, and at least once if the event is
processed. -/
theorem processings_le (h : run step (empty clock) acts = some s) :
    (s.done.map fun x => (x.worker, x.task)).Nodup ∧
    ∀ r ∈ s.db.events,
      s.done.countP (fun x => x.event = r.eventId) ≤ r.deliveryAttempts.toNat ∧
      (r.status = .processed → 1 ≤ s.done.countP (fun x => x.event = r.eventId)) := by
  have hs : s.Reachable := ⟨clock, acts, h⟩
  refine ⟨hs.processings.distinct, fun r hr => ⟨done_le h hr, fun hdone => ?_⟩⟩
  have hcount := (hs.db.processed_iff hr).mp hdone
  obtain ⟨g, hg, hcomplete⟩ := List.countP_pos_iff.mp (hcount ▸ Nat.one_pos)
  obtain ⟨hlog, hgid⟩ := Database.mem_history.mp hg
  obtain ⟨args, p, hcall, hid⟩ := hs.db.complete_author hlog hcomplete
  obtain ⟨k, i, w, -, hsuccess, -⟩ := hs.consistent.senders g.call args p hcall
  refine List.countP_pos_iff.mpr ⟨_, hsuccess, ?_⟩
  simpa using hid.symm.trans hgid

end System

namespace System

attribute [local instance] SampleFloat.serde

/-- In `overtakenRun` the event is delivered twice; at its end both tasks have succeeded. -/
theorem processings_le_overtaken :
    ∃ s, run step (empty 0) (overtakenRun ++ overtakenEnd) = some s ∧
      s.db.events.map (fun r => (r.status, r.deliveryAttempts)) = [(.processed, 2)] ∧
      s.done.map (fun x => (x.worker, x.task)) = [(0, 0), (0, 1)] ∧
      ∀ r ∈ s.db.events, r.status = .processed →
        1 ≤ s.done.countP (fun x => x.event = r.eventId) := by
  have hrun : (run step (empty 0) (overtakenRun ++ overtakenEnd)).map (fun s =>
      (s.db.events.map (fun r => (r.status, r.deliveryAttempts)),
        s.done.map fun x => (x.worker, x.task))) =
      some ([(.processed, 2)], [(0, 0), (0, 1)]) := by decide +kernel
  obtain ⟨s, hs, hobs⟩ := Option.map_eq_some_iff.mp hrun
  obtain ⟨hevents, hdone⟩ := Prod.mk.inj hobs
  exact ⟨s, hs, hevents, hdone, fun r hr => ((processings_le hs).2 r hr).2⟩

end System

end PulseStream
