import PulseStream.Store.ClaimRun
import PulseStream.System.Executions

/-!
# What the whole system guarantees

For any number of API processes and workers, with every failure the machine has: an event is
completed at most once and stays so (`completed_once`), a completion takes effect only on a row
that its worker holds (`completion_by_holder`), and no accepted event is lost or marked done
without having been processed (`accepted_never_lost`).
-/

namespace PulseStream

open Machine

/-- `RunReport.processed`, once there is a report. -/
def Worker.reported (w : Worker) : ℕ :=
  match w.phase with
  | .stopped report => report.processed
  | _ => 0

namespace System

variable {F : Type} [SerdeJson F] {s s' : System}

/-! ## Completed at most once -/

/-- The sum of `RunReport.processed` over the workers that have stopped. -/
def reported (s : System) : ℕ := (s.workers.map Worker.reported).sum

theorem Reachable.reported_le (h : s.Reachable) : s.reported ≤ s.processed := by
  refine List.sum_le_sum fun w hw => ?_
  obtain ⟨k, hk⟩ := List.mem_iff_getElem?.mp hw
  unfold Worker.reported
  split
  · rename_i report hphase
    obtain ⟨b, n, rfl⟩ := h.reports hk hphase
    exact le_rfl
  · exact Nat.zero_le _

/-- **Completed once.** Of the completions of an event at most one takes effect, and no two are
told `true`; a row is processed exactly if one took effect, and is then never changed again; and
the workers count and report no more processed events than there are processed rows. -/
theorem completed_once (h : s.Reachable) :
    (∀ w ∈ s.db.log, ∀ w' ∈ s.db.log, w.isComplete = true → w'.isComplete = true →
      w.row.eventId = w'.row.eventId → w = w') ∧
    (∀ (c c' : ℕ) (args args' : CompleteArgs) (p p' : Progress CompleteStage Bool),
      s.db.calls[c]? = some (.complete args p) → s.db.calls[c']? = some (.complete args' p') →
      p.answer = some true → p'.answer = some true → args.id = args'.id → c = c') ∧
    (∀ r ∈ s.db.events, r.status = .processed ↔
      (s.db.history r.eventId).countP Write.isComplete = 1) ∧
    (∀ s', Reaches step s s' → ∀ r ∈ s.db.events, r.status = .processed → r ∈ s'.db.events) ∧
    s.reported ≤ s.processed ∧
    s.processed ≤ (s.db.events.filter fun r => r.status = .processed).length := by
  refine ⟨?_, ?_, fun r hr => h.db.processed_iff hr, ?_, h.reported_le, ?_⟩
  · intro w hw w' hw' hc hc' hid
    exact h.db.complete_unique hw hw' hid hc hc'
  · intro c c' args args' p p' hc hc' hp hp' hid
    obtain ⟨w, hw, hcomplete, rfl⟩ := h.db.complete_written hc hp
    obtain ⟨w', hw', hcomplete', rfl⟩ := h.db.complete_written hc' hp'
    obtain ⟨hlog, hwid⟩ := Database.mem_history.mp hw
    obtain ⟨hlog', hwid'⟩ := Database.mem_history.mp hw'
    rw [h.db.complete_unique hlog hlog' (hwid.trans (hid.trans hwid'.symm)) hcomplete hcomplete']
  · intro s' hrun r hr hdone
    exact h.db.processed_final (reaches_db hrun) hr hdone
  · exact h.counted.trans h.db.completedCalls_le

/-- The event of the run below, as a claim of it returns it. -/
def overtakenClaim (attempt : ℕ) (reclaimed : Bool) : ClaimedEvent (Json Token) :=
  ⟨⟨⟨7⟩, .ordersApi, .orderCreated, .bool true, 0⟩, attempt, reclaimed⟩

/-- A worker with two slots claims an event, is still busy with it when the lease ends, and claims
it again for its second slot; then the first task sends its completion, which locks the row. -/
def overtakenRun : List SystemAct :=
  let args : AdmitArgs :=
    ⟨⟨7⟩, "orders-api", "order.created", .bool true, "k", List.replicate 32 0⟩
  [.store (.begin (.admitEvent args)), .store (.advance 0), .store (.advance 0),
    .store (.signal 0 .reply), .start ⟨1⟩ ⟨2, 10⟩,
    .worker 0 (.claimSent 1), .store (.advance 1), .store (.advance 1), .store (.advance 1),
    .worker 0 (.claimReturned (.ok [overtakenClaim 1 false])), .worker 0 .spawned,
    .worker 0 .spawnDone, .store (.tick 10), .worker 0 .poll,
    .worker 0 (.claimSent 2), .store (.advance 2), .store (.advance 2), .store (.advance 2),
    .worker 0 (.claimReturned (.ok [overtakenClaim 2 true])), .worker 0 .spawned,
    .worker 0 .spawnDone, .worker 0 (.processReturned 0 true), .worker 0 (.completeSent 0 3),
    .store (.advance 3), .store (.advance 3)]

/-- The rest of the run: the first task is told `true`, the second one `false`, and the worker
finds nothing to claim, drains and stops. -/
def overtakenEnd : List SystemAct :=
  [.store (.advance 3), .worker 0 (.completeReturned 0 (.ok true)),
    .worker 0 (.processReturned 1 true), .worker 0 (.completeSent 1 4), .store (.advance 4),
    .store (.advance 4), .worker 0 (.completeReturned 1 (.ok false)), .worker 0 (.joined 0),
    .worker 0 (.joined 1), .worker 0 (.claimSent 5), .store (.advance 5), .store (.advance 5),
    .worker 0 (.claimReturned (.ok [])), .worker 0 .spawnDone, .worker 0 .shutdown,
    .worker 0 .drained]

end System

namespace System

attribute [local instance] SampleFloat.serde

/-- Two tasks of one worker complete the same event: one counts, the other is a lost claim. -/
theorem completed_once_overtaken :
    ∃ s, run step (empty 0) (overtakenRun ++ overtakenEnd) = some s ∧
      (s.reported, s.workers.map (·.lostClaims), s.db.events.map (·.status)) =
        (1, [1], [.processed]) ∧
      s.reported ≤ s.processed ∧
      s.processed ≤ (s.db.events.filter fun r => r.status = .processed).length := by
  have hrun : (run step (empty 0) (overtakenRun ++ overtakenEnd)).map (fun s =>
      (s.reported, s.workers.map (·.lostClaims), s.db.events.map (·.status))) =
        some (1, [1], [.processed]) := by decide +kernel
  obtain ⟨s, hs, hobs⟩ := Option.map_eq_some_iff.mp hrun
  exact ⟨s, hs, hobs, (completed_once ⟨0, _, hs⟩).2.2.2.2⟩

end System

namespace System

variable {F : Type} [SerdeJson F] {s s' : System}

/-! ## Stale claims -/

theorem Reachable.task_claim (h : s.Reachable) {k : ℕ} {w : Worker} (hw : s.workers[k]? = some w)
    {t : Task} (ht : t ∈ w.tasks) :
    ∃ g ∈ s.db.history t.claim.event.id, g.attempt = some (t.claim.attempt : ℤ) := by
  obtain ⟨c, call, hc, -, hx⟩ := (h.consistent.workers k w hw).claims t.claim
    (Worker.mem_claims.mpr (.inl ⟨t, ht, rfl⟩))
  obtain ⟨g, hg, -, hattempt, -⟩ := h.db.claimed_logged hc hx
  exact ⟨g, hg, hattempt⟩

/-- **Completion by the holder.** Whenever the completion that a task has sent moves, it leaves the
table and is told nothing new but `false`; or it completes the row, and then the latest claim of the
event was granted to this worker. So the task's own claim is the latest, unless the same worker has
been granted a later one. -/
theorem completion_by_holder (h : s.Reachable) {k : ℕ} {w : Worker}
    (hw : s.workers[k]? = some w) {t : Task} (ht : t ∈ w.tasks) {c : ℕ}
    (hstage : t.stage = .completing c) :
    ∃ p, s.db.calls[c]? = some (.complete ⟨t.claim.event.id, w.owner⟩ p) ∧
      ∀ a s', s.step a = some s' → s'.db.calls[c]? ≠ s.db.calls[c]? →
        (s'.db.events = s.db.events ∧
          ∃ p', s'.db.calls[c]? = some (.complete ⟨t.claim.event.id, w.owner⟩ p') ∧
            (p'.answer = some true → p.answer = some true)) ∨
        (∃ r ∈ s.db.events, ∃ now, r.eventId = t.claim.event.id ∧
          s'.db.events = Table.put (·.eventId) [r.completed now] s.db.events ∧
          s'.db.calls[c]? = some (.complete ⟨t.claim.event.id, w.owner⟩ (.committed true)) ∧
          (t.claim.attempt : ℤ) ≤ r.deliveryAttempts ∧
          (∃ g ∈ s.db.history r.eventId, g.row = r ∧ g.claimedBy = some w.owner) ∧
          ((∀ g ∈ s.db.history r.eventId, g.claimedBy = some w.owner →
            g.row.deliveryAttempts ≤ t.claim.attempt) →
              r.deliveryAttempts = t.claim.attempt)) := by
  obtain ⟨-, p, hc⟩ := (h.consistent.workers k w hw).completing t ht c hstage
  refine ⟨p, hc, fun a s' hstep hmoved => ?_⟩
  rcases (step_spec hstep).db with hsame | ⟨act, hact⟩
  · exact absurd (by rw [hsame]) hmoved
  rcases (Database.step_spec hact).complete_moves h.db.sound hc hmoved with
    hnothing | ⟨r, hr, now, hid, howned, hevents, hcall⟩
  · exact .inl hnothing
  · have htrail := h.db.traced.trail r hr
    obtain ⟨g, hg, hattempt⟩ := h.task_claim hw ht
    have hg : g ∈ s.db.history r.eventId := hid ▸ hg
    have hle := htrail.attempt_le g hg _ hattempt
    obtain ⟨held, hheld, hrow, hby⟩ := htrail.held howned
    refine .inr ⟨r, hr, now, hid, hevents, hcall, hle, ⟨held, hheld, hrow, hby⟩, fun hlast => ?_⟩
    have hge := hlast held hheld hby
    rw [hrow] at hge
    exact le_antisymm hge hle

end System

namespace System

attribute [local instance] SampleFloat.serde

/-- At the end of the run the task of attempt 1 has a completion under way. -/
theorem completion_by_holder_overtaken :
    ∃ s w t, run step (empty 0) overtakenRun = some s ∧ s.workers[0]? = some w ∧ t ∈ w.tasks ∧
      (t.stage, t.claim.attempt) = (.completing 3, 1) ∧
      ∃ p, s.db.calls[3]? = some (.complete ⟨t.claim.event.id, w.owner⟩ p) := by
  have hrun : (run step (empty 0) overtakenRun).bind (fun s => s.workers[0]?.bind fun w =>
      w.tasks[0]?.map fun t => (t.stage, t.claim.attempt)) = some (.completing 3, 1) := by
    decide +kernel
  obtain ⟨s, hs, hobs⟩ := Option.bind_eq_some_iff.mp hrun
  obtain ⟨w, hw, hobs⟩ := Option.bind_eq_some_iff.mp hobs
  obtain ⟨t, ht, hobs⟩ := Option.map_eq_some_iff.mp hobs
  have hmem := List.mem_of_getElem? ht
  obtain ⟨p, hc, -⟩ := completion_by_holder ⟨0, _, hs⟩ hw hmem (Prod.mk.inj hobs).1
  exact ⟨s, w, t, hs, hw, hmem, hobs, p, hc⟩

/-- The same worker has been granted attempt 2, and still the completion of the task of attempt 1
marks the row and is counted. -/
theorem overtaken_task_completes :
    (run step (empty 0) overtakenRun).map (fun s =>
      s.workers.map fun w => w.tasks.map fun t => (t.claim.event.id, t.claim.attempt, t.stage)) =
      some [[(⟨7⟩, 1, .completing 3), (⟨7⟩, 2, .processing)]] ∧
    (run step (empty 0) overtakenRun).map (fun s =>
      s.db.events.map fun r => (r.eventId, r.status, r.deliveryAttempts)) =
      some [(⟨7⟩, .processing, 2)] ∧
    (run step (empty 0) (overtakenRun ++ [.store (.advance 3)])).map (fun s =>
      s.db.events.map fun r => (r.eventId, r.status, r.deliveryAttempts)) =
      some [(⟨7⟩, .processed, 2)] ∧
    (run step (empty 0) (overtakenRun ++ overtakenEnd.take 2)).map (fun s =>
      s.workers.map (·.processed)) = some [1] := by
  refine ⟨?_, ?_, ?_, ?_⟩ <;> decide +kernel

end System

namespace System

variable {F : Type} [SerdeJson F] {s s' : System}

/-! ## Nothing is lost -/

/-- A row that is not processed is claimable now or when its lease ends. -/
theorem claimable_later {r : Row} (hwf : r.WellFormed) (hopen : r.status ≠ .processed) :
    (r.status = .pending ∧ ∀ now, r.Claimable now) ∨
      (r.status = .processing ∧
        ∃ l, r.leaseExpiresAt = some l ∧ ∀ now, l ≤ now → r.Claimable now) := by
  cases hstatus : r.status with
  | pending => exact .inl ⟨rfl, fun now => .inl hstatus⟩
  | processing =>
    obtain ⟨l, hl⟩ := hwf.under_lease hstatus
    exact .inr ⟨rfl, l, hl, fun now hle => .inr ⟨hstatus, l, hl, hle⟩⟩
  | processed => exact absurd hstatus hopen

theorem Reachable.processed_sent (h : s.Reachable) {a : SystemAct} (hstep : s.step a = some s')
    {r : Row} (hr : r ∈ s'.db.events) (hdone : r.status = .processed) :
    ∃ g ∈ s'.db.history r.eventId, ∃ (k i : ℕ) (w : Worker) (now : Timestamp),
      g.op = .complete w.owner now ∧ ⟨g.call, k, i⟩ ∈ s.sent ∧ ⟨k, i, r.eventId⟩ ∈ s.done ∧
      s.workers[k]? = some w := by
  have h' := (h.next hstep).db
  have hcount := (h'.processed_iff hr).mp hdone
  obtain ⟨g, hg, hcomplete⟩ := List.countP_pos_iff.mp (hcount ▸ Nat.one_pos)
  obtain ⟨hlog, hid⟩ := Database.mem_history.mp hg
  obtain ⟨call', hcall', hauth⟩ := h'.accounted.authors g hlog
  -- the call that wrote the version was there before the step, with the same request
  have hlt : g.call < s.db.calls.length := by
    rcases (step_spec hstep).db with hsame | ⟨act, hact⟩
    · rw [← hsame]
      exact (List.getElem?_eq_some_iff.mp hcall').1
    · exact (Database.step_spec hact).write_call h.db.accounted hlog
  obtain ⟨call, hcall⟩ : ∃ call, s.db.calls[g.call]? = some call :=
    ⟨_, List.getElem?_eq_getElem hlt⟩
  obtain ⟨call₁, hcall₁, hreq, -⟩ := (step_spec hstep).extends.carries g.call call hcall
  obtain rfl := Option.some.inj (hcall'.symm.trans hcall₁)
  rw [hreq] at hauth
  cases call with
  | admitEvent args p => simp [Write.isComplete, hauth.1] at hcomplete
  | claim args p =>
    obtain ⟨now, previous, hop⟩ := hauth
    simp [Write.isComplete, hop] at hcomplete
  | complete args p =>
    obtain ⟨⟨now, hop⟩, hargs⟩ := hauth
    obtain ⟨k, i, w, hsent, hrecord, hw, howner⟩ := h.consistent.senders g.call args p hcall
    rw [← hargs, hid] at hrecord
    exact ⟨g, hg, k, i, w, now, by rw [hop, howner], hsent, hrecord, hw⟩

/-- **Nothing is lost.** A committed row is there in every later state, with its content. A row that
is not processed is pending, or claimable from the end of its lease on; and a claim takes every
unlocked claimable row that its limit reaches. A row becomes `PROCESSED` only by a completion whose
sending task had its processor succeed on the event before. -/
theorem accepted_never_lost (h : s.Reachable) :
    (∀ s', Reaches step s s' → ∀ r ∈ s.db.events,
      ∃ r' ∈ s'.db.events, r'.toContent = r.toContent) ∧
    (∀ r ∈ s.db.events, r.status ≠ .processed →
      (r.status = .pending ∧ ∀ now, r.Claimable now) ∨
        (r.status = .processing ∧
          ∃ l, r.leaseExpiresAt = some l ∧ ∀ now, l ≤ now → r.Claimable now)) ∧
    ((∀ q ∈ s.db.events, q.deliveryAttempts < integerMax) →
      ∀ r ∈ s.db.events, r.Claimable s.db.clock → s.db.lockedBySome r.eventId = false →
        ∀ args : ClaimArgs, s.db.rank r ≤ args.sqlLimit →
          ∃ n db' grants,
            run Database.step s.db
              (.begin (.claim args) :: List.replicate n (.advance s.db.calls.length)) = some db' ∧
            db'.calls[s.db.calls.length]? = some (.claim args (.committed grants)) ∧
            args.grant s.db.clock r ∈ grants ∧
            r.claimed args.owner s.db.clock args.lease ∈ db'.events) ∧
    (∀ a s', s.step a = some s' → ∀ r ∈ s'.db.events, r.status = .processed →
      ∃ g ∈ s'.db.history r.eventId, ∃ (k i : ℕ) (w : Worker) (now : Timestamp),
        g.op = .complete w.owner now ∧ ⟨g.call, k, i⟩ ∈ s.sent ∧ ⟨k, i, r.eventId⟩ ∈ s.done ∧
        s.workers[k]? = some w) := by
  refine ⟨?_, ?_, ?_, ?_⟩
  · intro s' hrun r hr
    exact h.db.persists (reaches_db hrun) hr
  · intro r hr hopen
    exact claimable_later (h.db.wellFormed hr) hopen
  · intro hroom r hr hclaim hfree args hrank
    exact Database.claim_takes h.db hroom hr hclaim hfree hrank
  · intro a s' hstep r hr hdone
    exact h.processed_sent hstep hr hdone

end System

namespace System

attribute [local instance] SampleFloat.serde

/-- In the run the row is under a lease until 20, and the completion that has locked it was sent
by a task that is on record. -/
theorem accepted_never_lost_overtaken :
    ∃ s, run step (empty 0) overtakenRun = some s ∧
      (s.db.events.map fun r => (r.status, r.leaseExpiresAt), s.sent, s.done) =
        ([(.processing, some 20)], [⟨3, 0, 0⟩], [⟨0, 0, ⟨7⟩⟩]) ∧
      ∀ r ∈ s.db.events, r.status ≠ .processed →
        (r.status = .pending ∧ ∀ now, r.Claimable now) ∨
          (r.status = .processing ∧
            ∃ l, r.leaseExpiresAt = some l ∧ ∀ now, l ≤ now → r.Claimable now) := by
  have hrun : (run step (empty 0) overtakenRun).map (fun s =>
      (s.db.events.map fun r => (r.status, r.leaseExpiresAt), s.sent, s.done)) =
        some ([(.processing, some 20)], [⟨3, 0, 0⟩], [⟨0, 0, ⟨7⟩⟩]) := by decide +kernel
  obtain ⟨s, hs, hobs⟩ := Option.map_eq_some_iff.mp hrun
  exact ⟨s, hs, hobs, (accepted_never_lost ⟨0, _, hs⟩).2.1⟩

end System

end PulseStream
