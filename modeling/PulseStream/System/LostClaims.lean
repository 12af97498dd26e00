import PulseStream.Store.Atomic
import PulseStream.System.Deliveries
import PulseStream.System.Report

/-!
# Lost claims

A worker counts a claim as lost when its completion was told `false`. That happens only after the
event was delivered once more: the workers together never report more lost claims than there were
redeliveries (`lost_claims_le`). Behind it is `Overtaken`: when a completion finds that its worker
does not hold the row, a later attempt was granted, or the row was completed by another task, and
that task has a delivery of its own.
-/

namespace PulseStream

open Machine

/-! ## A claim that was overtaken -/

/-- After the claim `x` its event was claimed once more, or completed. -/
def Database.Overtaken {P : Type} (s : Database) (x : ClaimedEvent P) : Prop :=
  ∃ g ∈ s.history x.event.id, g.isComplete = true ∨ ∃ n ∈ g.attempt, (x.attempt : ℤ) < n

theorem Trail.not_held {ws : List Write} {r : Row} (h : Trail ws r) {g : Write} (hg : g ∈ ws)
    {n : ℤ} (hn : g.attempt = some n) {owner : WorkerId} (hby : g.claimedBy = some owner)
    (hnot : ¬ r.OwnedBy owner) : r.status = .processed ∨ n < r.deliveryAttempts := by
  have hle := h.attempt_le g hg n hn
  rcases h.wellFormed.checks.2 with hl | hl | hl
  · -- a pending row has not been claimed
    have hmem : n ∈ ws.filterMap Write.attempt := List.mem_filterMap.mpr ⟨g, hg, hn⟩
    rw [h.attempts, h.wellFormed.pending_attempts hl.1] at hmem
    cases hmem
  · obtain ⟨o, ho⟩ := Option.ne_none_iff_exists'.mp hl.2.1
    obtain ⟨f, hf, hrow, hfby⟩ := h.held ⟨hl.1, ho⟩
    have hfn : f.attempt = some r.deliveryAttempts := by
      rw [← hrow]
      unfold Write.claimedBy at hfby
      unfold Write.attempt
      split at hfby
      · rfl
      · cases hfby
    refine .inr (lt_of_le_of_ne hle fun heq => hnot ?_)
    obtain rfl := h.attempt_inj g hg f hf n hn (heq ▸ hfn)
    obtain rfl := Option.some.inj (hby.symm.trans hfby)
    exact ⟨hl.1, ho⟩
  · exact .inl hl.1

namespace Database

variable {s s' : Database}

theorem Overtaken.mono {P : Type} {x : ClaimedEvent P} (h : s.Overtaken x)
    (hlog : s.log ⊆ s'.log) : s'.Overtaken x := by
  obtain ⟨g, hg, hwhat⟩ := h
  obtain ⟨hmem, hid⟩ := mem_history.mp hg
  exact ⟨g, mem_history.mpr ⟨hlog hmem, hid⟩, hwhat⟩

theorem Reachable.overtaken (h : s.Reachable) {P : Type} {x : ClaimedEvent P} {g : Write}
    (hg : g ∈ s.history x.event.id) (hn : g.attempt = some (x.attempt : ℤ)) {owner : WorkerId}
    (hby : g.claimedBy = some owner)
    (hnot : ∀ r ∈ s.events, r.eventId = x.event.id → ¬ r.OwnedBy owner) : s.Overtaken x := by
  obtain ⟨hlog, hgid⟩ := mem_history.mp hg
  obtain ⟨r, hr, hrid⟩ := h.traced.known g hlog
  have hid : r.eventId = x.event.id := hrid.trans hgid
  have htrail := h.traced.trail r hr
  rw [← hid] at hg
  rcases htrail.not_held hg hn hby (hnot r hr hid) with hdone | hlt
  · have hcount := (h.processed_iff hr).mp hdone
    obtain ⟨f, hf, hcomplete⟩ := List.countP_pos_iff.mp (hcount ▸ Nat.one_pos)
    exact ⟨f, hid ▸ hf, .inl hcomplete⟩
  · -- the last claim of the row
    have hmem : r.deliveryAttempts ∈ (s.history r.eventId).filterMap Write.attempt := by
      rw [htrail.attempts]
      have hpos : (x.attempt : ℤ) < r.deliveryAttempts := hlt
      refine List.mem_map.mpr ⟨r.deliveryAttempts.toNat, ?_, Int.toNat_of_nonneg (by omega)⟩
      rw [List.mem_range'_1]
      omega
    obtain ⟨f, hf, hfn⟩ := List.mem_filterMap.mp hmem
    exact ⟨f, hid ▸ hf, .inr ⟨_, hfn, hlt⟩⟩

theorem Reachable.complete_author (h : s.Reachable) {g : Write} (hlog : g ∈ s.log)
    (hcomplete : g.isComplete = true) :
    ∃ args p, s.calls[g.call]? = some (.complete args p) ∧ g.row.eventId = args.id := by
  obtain ⟨call, hcall, hauth⟩ := h.accounted.authors g hlog
  cases call with
  | complete args p => exact ⟨args, p, hcall, hauth.2⟩
  | admitEvent args p => simp [Write.isComplete, hauth.1] at hcomplete
  | claim args p =>
    obtain ⟨now, previous, hop⟩ := hauth
    simp [Write.isComplete, hop] at hcomplete

theorem Reachable.gives_up {a : Act} (h : s.Reachable) (hstep : s.step a = some s') {c : ℕ}
    {args : CompleteArgs} (hop : s'.effectAt c = some (.complete args false)) :
    s.effectAt c = some (.complete args false) ∨
      ∀ r ∈ s'.events, r.eventId = args.id → ¬ r.OwnedBy args.owner := by
  rcases h.effect_new hstep hop with hold | hnew
  · exact .inl hold
  · refine .inr fun r hr hid howned => ?_
    have h' := h.next hstep
    rcases h.happens_spec hstep with ⟨hnil, -⟩ | ⟨d, op, -, -, -, hone, happly⟩
    · rw [hnil] at hnew
      cases hnew
    · rw [hone] at hnew
      cases List.mem_singleton.mp hnew
      generalize hq : s'.queue = q at happly
      cases happly with
      | ignored hheld =>
        obtain ⟨expiry, hhold⟩ := (h'.wellFormed hr).ownedBy_iff.mp howned
        refine hheld r.entry ?_ expiry hhold
        rw [← hq, ← hid]
        exact queue_of_mem h'.sound hr

end Database

/-! ## Tasks of a run -/

namespace System

variable {F : Type} [SerdeJson F] {s s' : System} {a : SystemAct} {clock : Timestamp}
  {acts : List SystemAct} {k i : ℕ}
  {x : ClaimedEvent (Json Token)}

/-- Task `i` of worker `k` was spawned for the claim `x`. -/
def TaskOf (acts : List SystemAct) (s : System) (k i : ℕ) (x : ClaimedEvent (Json Token)) : Prop :=
  ∃ w e, s.workers[k]? = some w ∧
    run Execution.step (.start w.owner w.config) (acts.filterMap (·.ofWorker k)) = some e ∧
    (⟨i, x, .processing⟩ : Task) ∈ e.spawned

theorem TaskOf.delivery (h : run step (empty clock) acts = some s) (ht : TaskOf acts s k i x) :
    (k, x) ∈ PulseStream.deliveries acts := by
  obtain ⟨w, e, -, he, hmem⟩ := ht
  exact (spawned_delivery h he).1 _ hmem

theorem TaskOf.unique (h : run step (empty clock) acts = some s) {k' i' : ℕ}
    {x' : ClaimedEvent (Json Token)} (ht : TaskOf acts s k i x) (ht' : TaskOf acts s k' i' x')
    (heq : x.delivery = x'.delivery) : k = k' ∧ i = i' := by
  have hpair := List.inj_on_of_nodup_map (run_delivered h).distinct (ht.delivery h)
    (ht'.delivery h) heq
  obtain rfl := (Prod.mk.inj hpair).1
  obtain ⟨w, e, hw, he, hmem⟩ := ht
  obtain ⟨w', e', hw', he', hmem'⟩ := ht'
  obtain rfl := Option.some.inj (hw.symm.trans hw')
  obtain rfl := Option.some.inj (he.symm.trans he')
  exact ⟨rfl, (Task.mk.inj ((spawned_delivery h he).2 _ hmem _ hmem' heq)).1⟩

theorem TaskOf.claim_eq {x' : ClaimedEvent (Json Token)} (ht : TaskOf acts s k i x)
    (ht' : TaskOf acts s k i x') : x = x' := by
  obtain ⟨w, e, hw, he, hmem⟩ := ht
  obtain ⟨w', e', hw', he', hmem'⟩ := ht'
  obtain rfl := Option.some.inj (hw.symm.trans hw')
  obtain rfl := Option.some.inj (he.symm.trans he')
  have hids := (Execution.reachable_of_run he).tidy.ids
  have hnodup : (e.spawned.map Task.id).Nodup := hids ▸ List.nodup_range
  exact (Task.mk.inj (List.inj_on_of_nodup_map hnodup hmem hmem' rfl)).2.1

theorem TaskOf.next (h : run step (empty clock) acts = some s) (hstep : s.step a = some s')
    (ht : TaskOf acts s k i x) : TaskOf (acts ++ [a]) s' k i x := by
  obtain ⟨w, e, hw, he, hmem⟩ := ht
  have hrun : run step (empty clock) (acts ++ [a]) = some s' :=
    run_append h (run_cons_eq_some.mpr ⟨s', hstep, rfl⟩)
  have hlt := (List.getElem?_eq_some_iff.mp hw).1
  cases step_spec hstep with
  | store hown hact => exact ⟨w, e, hw, by simpa [SystemAct.ofWorker] using he, hmem⟩
  | start hpos =>
    exact ⟨w, e, by rwa [List.getElem?_append_left hlt], by simpa [SystemAct.ofWorker] using he,
      hmem⟩
  | @worker j b w₀ w' db hw₀ hlive hw' hdb =>
    by_cases hjk : j = k
    · subst hjk
      obtain rfl := Option.some.inj (hw.symm.trans hw₀)
      have hnew : (s.workers.set j w')[j]? = some w' := List.getElem?_set_self hlt
      obtain ⟨e', he', -, -⟩ := executions hrun hnew
      refine ⟨w', e', hnew, he', ?_⟩
      rw [List.filterMap_append, hw'.owner, hw'.effect.config] at he'
      obtain ⟨e₀, he₀, hlast⟩ := run_append_eq_some.mp he'
      obtain rfl := Option.some.inj (he.symm.trans he₀)
      have hpart : [SystemAct.worker j b].filterMap (·.ofWorker j) = [b] := by
        simp [SystemAct.ofWorker]
      rw [hpart] at hlast
      obtain ⟨e₁, hb, hnil⟩ := run_cons_eq_some.mp hlast
      obtain rfl := Option.some.inj hnil
      cases Execution.step_spec hb with
      | step hroom hlive hstep => exact List.mem_append_left _ hmem
    · exact ⟨w, e, (List.getElem?_set_ne hjk).trans hw, by simpa [SystemAct.ofWorker, hjk] using he,
        hmem⟩

theorem run_done (h : run step (empty clock) acts = some s) :
    ∀ x ∈ s.done, ∃ claim, TaskOf acts s x.worker x.task claim ∧ claim.event.id = x.event := by
  refine run_invariant (P := fun acts t => ∀ x ∈ t.done,
    ∃ claim, TaskOf acts t x.worker x.task claim ∧ claim.event.id = x.event)
    (fun x hx => (by cases hx)) ?_ h
  intro acts t a t' hrun hP ha x hx
  have hold : x ∈ t.done →
      ∃ claim, TaskOf (acts ++ [a]) t' x.worker x.task claim ∧ claim.event.id = x.event := by
    intro hx
    obtain ⟨claim, htask, hid⟩ := hP x hx
    exact ⟨claim, htask.next hrun ha, hid⟩
  cases hspec : step_spec ha with
  | store hown hact => exact hold hx
  | start hpos => exact hold hx
  | @worker j b w w' db hw hlive hw' hdb =>
    rcases List.mem_append.mp hx with hx | hnew
    · exact hold hx
    · cases b with
      | processReturned i ok =>
        cases ok with
        | true =>
          obtain ⟨task, htask, rfl⟩ := List.mem_map.mp hnew
          have htask := Option.mem_toList.mp htask
          obtain ⟨e, he, rfl, -⟩ := executions hrun hw
          have horigin := (Execution.reachable_of_run he).tidy.origin task (Worker.task_mem htask)
          rw [Worker.task_id htask] at horigin
          exact ⟨task.claim, TaskOf.next hrun ha ⟨_, e, hw, he, horigin⟩, rfl⟩
        | false => cases hnew
      | _ => cases hnew

theorem Delivered.granted {ds : List (ℕ × ClaimedEvent (Json Token))} (h : Delivered ds s)
    (hs : s.Reachable) (hx : (k, x) ∈ ds) {w : Worker} (hw : s.workers[k]? = some w) :
    ∃ g ∈ s.db.history x.event.id, g.attempt = some (x.attempt : ℤ) ∧
      g.claimedBy = some w.owner := by
  obtain ⟨c, args, grants, w', hc, hmem, hw', howner⟩ := h.returned _ hx
  obtain rfl := Option.some.inj (hw.symm.trans hw')
  obtain ⟨g, hg, hcall, hattempt, -⟩ := hs.db.claimed_logged hc hmem
  obtain ⟨call, hcall', hauth⟩ := hs.db.accounted.authors g (Database.mem_history.mp hg).1
  rw [hcall] at hcall'
  obtain rfl := Option.some.inj (hc.symm.trans hcall')
  obtain ⟨now, previous, hop⟩ := hauth
  refine ⟨g, hg, hattempt, ?_⟩
  rw [howner]
  simp [Write.claimedBy, hop]

theorem sender (h : run step (empty clock) acts = some s) {c : ℕ} {args : CompleteArgs}
    {p : Progress CompleteStage Bool} (hc : s.db.calls[c]? = some (.complete args p)) :
    ∃ k i claim w, ⟨c, k, i⟩ ∈ s.sent ∧ TaskOf acts s k i claim ∧ claim.event.id = args.id ∧
      s.workers[k]? = some w ∧ w.owner = args.owner := by
  have hs : s.Reachable := ⟨clock, acts, h⟩
  obtain ⟨k, i, w, hsent, hdone, hw, howner⟩ := hs.consistent.senders c args p hc
  obtain ⟨claim, htask, hid⟩ := run_done h _ hdone
  exact ⟨k, i, claim, w, hsent, htask, hid, hw, howner⟩

theorem log_subset (h : s.step a = some s') : s.db.log ⊆ s'.db.log := by
  rcases (step_spec h).db with heq | ⟨act, hact⟩
  · rw [heq]
    exact List.Subset.refl _
  · obtain ⟨-, ws, hlog, -⟩ := (Database.step_spec hact).logged
    rw [hlog]
    exact List.subset_append_left _ _

/-- A completion that was decided as `false` was sent by a task whose claim was overtaken. -/
theorem run_overtaken (h : run step (empty clock) acts = some s) :
    ∀ c args, s.db.effectAt c = some (.complete args false) →
      ∃ k i claim, ⟨c, k, i⟩ ∈ s.sent ∧ TaskOf acts s k i claim ∧ s.db.Overtaken claim := by
  refine run_invariant (P := fun acts t => ∀ c args,
    t.db.effectAt c = some (.complete args false) →
      ∃ k i claim, ⟨c, k, i⟩ ∈ t.sent ∧ TaskOf acts t k i claim ∧ t.db.Overtaken claim) ?_ ?_ h
  · intro c args hop
    simp [Database.effectAt, empty, Database.empty] at hop
  intro acts t a t' hrun hP ha c args hop
  have hrun' : run step (empty clock) (acts ++ [a]) = some t' :=
    run_append hrun (run_cons_eq_some.mpr ⟨t', ha, rfl⟩)
  have hs : t.Reachable := ⟨clock, acts, hrun⟩
  have hs' := hs.next ha
  have hold : t.db.effectAt c = some (.complete args false) →
      ∃ k i claim, ⟨c, k, i⟩ ∈ t'.sent ∧ TaskOf (acts ++ [a]) t' k i claim ∧
        t'.db.Overtaken claim := by
    intro hop
    obtain ⟨k, i, claim, hsent, htask, hover⟩ := hP c args hop
    exact ⟨k, i, claim, (step_spec ha).extends.sent hsent, htask.next hrun ha,
      hover.mono (log_subset ha)⟩
  rcases (step_spec ha).db with heq | ⟨act, hact⟩
  · exact hold (heq ▸ hop)
  rcases hs.db.gives_up hact hop with hbefore | hnot
  · exact hold hbefore
  · obtain ⟨call, hc, heffect⟩ := Option.bind_eq_some_iff.mp hop
    obtain ⟨p, rfl⟩ := Call.of_request_complete (Call.effect_request heffect).symm
    obtain ⟨k, i, claim, w, hsent, htask, hid, hw, howner⟩ := sender hrun' hc
    obtain ⟨g, hg, hn, hby⟩ := (run_delivered hrun').granted hs' (htask.delivery hrun') hw
    exact ⟨k, i, claim, hsent, htask,
      hs'.db.overtaken hg hn (howner ▸ hby) fun r hr hrid => hnot r hr (hrid.trans hid)⟩

/-! ## The count -/

/-- Task `i` of worker `k` was counted as lost. -/
def LostTask (acts : List SystemAct) (s : System) (k i : ℕ) : Prop :=
  ∃ w e, s.workers[k]? = some w ∧
    run Execution.step (.start w.owner w.config) (acts.filterMap (·.ofWorker k)) = some e ∧
    (i, .lost) ∈ e.counted

theorem LostTask.overtaken (h : run step (empty clock) acts = some s)
    (hlost : LostTask acts s k i) :
    (∃ claim, TaskOf acts s k i claim ∧ s.db.Overtaken claim) ∧
      ∀ c, ⟨c, k, i⟩ ∈ s.sent → s.db.written c = [] := by
  have hs : s.Reachable := ⟨clock, acts, h⟩
  obtain ⟨w, e, hw, he, hcounted⟩ := hlost
  obtain ⟨e', he', hew, hlink⟩ := executions h hw
  obtain rfl := Option.some.inj (he.symm.trans he')
  refine ⟨?_, fun c hsent => lost_wrote_nothing hs hlink hcounted hsent rfl rfl⟩
  obtain ⟨x, hx, rfl, rfl, args, hc⟩ := hlink.told i false hcounted
  have hop : s.db.effectAt x.call = some (.complete args false) := Database.effectAt_eq hc
  obtain ⟨k, i, claim, hsent, htask, hover⟩ := run_overtaken h _ _ hop
  have heq := hs.posted.inj _ hsent x hx rfl
  obtain rfl : k = x.worker := congrArg Sent.worker heq
  obtain rfl : i = x.task := congrArg Sent.task heq
  exact ⟨claim, htask, hover⟩

/-- The attempt `n` of the event was lost. -/
def LostAttempt (acts : List SystemAct) (s : System) (id : EventId) (n : ℕ) : Prop :=
  ∃ k i claim, TaskOf acts s k i claim ∧ claim.delivery = (id, n) ∧ LostTask acts s k i

/-- Of the attempts of an event one was not lost: the one whose task completed it, or the last. -/
theorem exists_not_lost (h : run step (empty clock) acts = some s) {r : Row}
    (hr : r ∈ s.db.events) (hpos : 0 < r.deliveryAttempts.toNat) :
    ∃ n ∈ Finset.Icc 1 r.deliveryAttempts.toNat, ¬ LostAttempt acts s r.eventId n := by
  have hs : s.Reachable := ⟨clock, acts, h⟩
  by_cases hdone : ∃ g ∈ s.db.history r.eventId, g.isComplete = true
  · obtain ⟨g, hg, hcomplete⟩ := hdone
    obtain ⟨hlog, hgid⟩ := Database.mem_history.mp hg
    obtain ⟨args, p, hcall, hid⟩ := hs.db.complete_author hlog hcomplete
    obtain ⟨k, i, claim, w, hsent, htask, hclaim, -⟩ := sender h hcall
    have hevent : claim.event.id = r.eventId := hclaim.trans (hid.symm.trans hgid)
    refine ⟨claim.attempt, (run_delivered h).attempt_mem hs hr (htask.delivery h) hevent, ?_⟩
    rintro ⟨k', i', claim', htask', hkey, hlost⟩
    have hsame : claim.delivery = (r.eventId, claim.attempt) := Prod.ext hevent rfl
    obtain ⟨rfl, rfl⟩ := htask.unique h htask' (hsame.trans hkey.symm)
    have hwritten := Database.mem_written.mpr ⟨hlog, rfl⟩
    rw [(hlost.overtaken h).2 g.call hsent] at hwritten
    cases hwritten
  · refine ⟨r.deliveryAttempts.toNat, Finset.mem_Icc.mpr ⟨hpos, le_rfl⟩, ?_⟩
    rintro ⟨k, i, claim, htask, hkey, hlost⟩
    obtain ⟨claim', htask', g, hg, hwhat⟩ := (hlost.overtaken h).1
    obtain rfl := htask.claim_eq htask'
    obtain ⟨hid, hattempt⟩ := Prod.mk.inj hkey
    rw [hid] at hg
    rcases hwhat with hcomplete | ⟨n, hn, hlt⟩
    · exact hdone ⟨g, hg, hcomplete⟩
    · have hle := (hs.db.traced.trail r hr).attempt_le g hg n hn
      omega

section Count

open Classical

/-- The lost attempts of a row. -/
noncomputable def lostAttempts (acts : List SystemAct) (s : System) (r : Row) : Finset ℕ :=
  (Finset.Icc 1 r.deliveryAttempts.toNat).filter fun n => LostAttempt acts s r.eventId n

theorem card_lostAttempts_le (h : run step (empty clock) acts = some s) {r : Row}
    (hr : r ∈ s.db.events) :
    (lostAttempts acts s r).card ≤ (r.deliveryAttempts - 1).toNat := by
  rcases Nat.eq_zero_or_pos r.deliveryAttempts.toNat with hzero | hpos
  · simp [lostAttempts, hzero]
  · obtain ⟨n, hn, hnot⟩ := exists_not_lost h hr hpos
    have hlt : (lostAttempts acts s r).card < (Finset.Icc 1 r.deliveryAttempts.toNat).card := by
      refine Finset.card_lt_card (Finset.filter_ssubset.mpr ⟨n, hn, hnot⟩)
    rw [Nat.card_Icc] at hlt
    omega

theorem lost_attempt (h : run step (empty clock) acts = some s) (hlost : LostTask acts s k i) :
    ∃ b ∈ s.db.events.toFinset.sigma fun r => lostAttempts acts s r,
      ∃ claim, TaskOf acts s k i claim ∧ claim.delivery = (b.1.eventId, b.2) := by
  have hs : s.Reachable := ⟨clock, acts, h⟩
  obtain ⟨claim, htask, g, hg, -⟩ := (hlost.overtaken h).1
  obtain ⟨hlog, hgid⟩ := Database.mem_history.mp hg
  obtain ⟨r, hr, hrid⟩ := hs.db.traced.known g hlog
  have hid : claim.event.id = r.eventId := hgid.symm.trans hrid.symm
  have hkey : claim.delivery = (r.eventId, claim.attempt) := Prod.ext hid rfl
  refine ⟨⟨r, claim.attempt⟩, Finset.mem_sigma.mpr ⟨List.mem_toFinset.mpr hr, ?_⟩, claim, htask,
    hkey⟩
  exact Finset.mem_filter.mpr ⟨(run_delivered h).attempt_mem hs hr (htask.delivery h) hid,
    k, i, claim, htask, hkey, hlost⟩

/-- **Lost claims.** All workers together count no more claims as lost than there were
redeliveries. -/
theorem lost_claims_le (h : run step (empty clock) acts = some s) :
    (s.workers.map Worker.lostClaims).sum ≤
      (s.db.events.map fun r => (r.deliveryAttempts - 1).toNat).sum := by
  have hs : s.Reachable := ⟨clock, acts, h⟩
  have hexec : ∀ k : Fin s.workers.length, ∃ e,
      run Execution.step (.start s.workers[k].owner s.workers[k].config)
        (acts.filterMap (·.ofWorker k)) = some e ∧ e.worker = s.workers[k] := by
    intro k
    obtain ⟨e, he, hew, -⟩ := executions h (List.getElem?_eq_getElem k.2)
    exact ⟨e, he, hew⟩
  choose e he hew using hexec
  have hlost : ∀ k : Fin s.workers.length,
      ((e k).countedAs .lost).toFinset.card = s.workers[k].lostClaims := by
    intro k
    have hacc := (Execution.reachable_of_run (he k)).accounted
    rw [List.toFinset_card_of_nodup hacc.countedAs_nodup, hacc.length_countedAs, hew k]
    rfl
  calc (s.workers.map Worker.lostClaims).sum
      = ∑ k : Fin s.workers.length, s.workers[k].lostClaims :=
        (Fin.sum_univ_fun_getElem s.workers Worker.lostClaims).symm
    _ = (Finset.univ.sigma fun k => ((e k).countedAs .lost).toFinset).card := by
        rw [Finset.card_sigma]
        exact Finset.sum_congr rfl fun k _ => (hlost k).symm
    _ ≤ (s.db.events.toFinset.sigma fun r => lostAttempts acts s r).card := by
        refine Finset.card_le_card_of_forall_subsingleton (fun a b => ∃ claim,
          TaskOf acts s a.1 a.2 claim ∧ claim.delivery = (b.1.eventId, b.2)) ?_ ?_
        · rintro ⟨k, i⟩ hki
          have hcounted := Execution.mem_countedAs.mp
            (List.mem_toFinset.mp (Finset.mem_sigma.mp hki).2)
          exact lost_attempt h ⟨_, _, List.getElem?_eq_getElem k.2, he k, hcounted⟩
        · rintro ⟨r, n⟩ - ⟨k, i⟩ ⟨-, claim, htask, hkey⟩ ⟨k', i'⟩ ⟨-, claim', htask', hkey'⟩
          obtain ⟨hk, hi⟩ := htask.unique h htask' (hkey.trans hkey'.symm)
          obtain rfl := Fin.ext hk
          obtain rfl := hi
          rfl
    _ = ∑ r ∈ s.db.events.toFinset, (lostAttempts acts s r).card := Finset.card_sigma _ _
    _ ≤ ∑ r ∈ s.db.events.toFinset, (r.deliveryAttempts - 1).toNat :=
        Finset.sum_le_sum fun r hr => card_lostAttempts_le h (List.mem_toFinset.mp hr)
    _ = (s.db.events.map fun r => (r.deliveryAttempts - 1).toNat).sum :=
        List.sum_toFinset _ (List.Nodup.of_map _ hs.db.sound.ids)

end Count

end System

namespace System

attribute [local instance] SampleFloat.serde

/-- In `overtakenRun` the event is delivered twice, and one claim of it is lost. -/
theorem lost_claims_le_overtaken :
    ∃ s, run step (empty 0) (overtakenRun ++ overtakenEnd) = some s ∧
      (s.workers.map Worker.lostClaims).sum = 1 ∧
      (s.workers.map Worker.lostClaims).sum ≤
        (s.db.events.map fun r => (r.deliveryAttempts - 1).toNat).sum := by
  have hrun : (run step (empty 0) (overtakenRun ++ overtakenEnd)).map (fun s =>
      (s.workers.map Worker.lostClaims).sum) = some 1 := by decide +kernel
  obtain ⟨s, hs, hobs⟩ := Option.map_eq_some_iff.mp hrun
  exact ⟨s, hs, hobs, lost_claims_le hs⟩

end System

end PulseStream
