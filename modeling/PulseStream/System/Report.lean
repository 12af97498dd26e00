import PulseStream.System.Guarantees

/-!
# The report and the table

What the report of a run says against the rows that its completions have moved to `PROCESSED`. An
answer may be lost and an aborted task may have sent its completion, so the two need not agree; the
report gives a lower and an upper bound (`report_brackets`).
-/

namespace PulseStream

open Machine

/-! ## The tasks of an outcome -/

namespace Execution

variable {e : Execution} {o : Outcome}

/-- The tasks that were counted with a given outcome. -/
def countedAs (e : Execution) (o : Outcome) : List ℕ :=
  (e.counted.filter fun x => x.2 = o).map Prod.fst

theorem mem_countedAs {i : ℕ} : i ∈ e.countedAs o ↔ (i, o) ∈ e.counted := by
  simp [countedAs]

theorem Accounted.length_countedAs (h : e.Accounted) :
    (e.countedAs o).length = e.worker.counter o := by
  rw [countedAs, List.length_map, ← List.countP_eq_length_filter, h.counters o]

theorem Accounted.countedAs_nodup (h : e.Accounted) : (e.countedAs o).Nodup :=
  h.ledger.nodup.sublist (List.filter_sublist.map _)

end Execution

namespace System

variable {F : Type} [SerdeJson F] {s : System} {k : ℕ}

/-! ## The completions sent -/

theorem sending_new {db db' : Database} {w : Worker} {b : WorkerAct} (h : db.Exchange w b db')
    {x : Sent} (hx : x ∈ b.sending k) :
    x.call = db.calls.length ∧ ∃ args p, db'.calls[x.call]? = some (.complete args p) := by
  cases h with
  | completeSent ht hact =>
    obtain rfl := List.mem_singleton.mp hx
    obtain rfl := Option.some.inj hact
    exact ⟨rfl, _, _, List.getElem?_concat_length⟩
  | alone hlocal =>
    cases b with
    | completeSent i c => cases hlocal
    | _ => cases hx
  | _ => cases hx

/-- The completions sent are calls of their own. -/
structure Posted (s : System) : Prop where
  calls : ∀ x ∈ s.sent, ∃ args p, s.db.calls[x.call]? = some (.complete args p)
  inj : ∀ x ∈ s.sent, ∀ y ∈ s.sent, x.call = y.call → x = y

theorem Reachable.posted (h : s.Reachable) : s.Posted := by
  refine h.invariant (fun clock => ⟨fun x hx => (by cases hx), fun x hx => (by cases hx)⟩) ?_
  intro t a t' _ ht hstep
  have hext := hstep.extends
  have hkept : ∀ x ∈ t.sent, ∃ args p, t'.db.calls[x.call]? = some (.complete args p) := by
    intro x hx
    obtain ⟨args, p, hc⟩ := ht.calls x hx
    exact ⟨args, hext.carries.complete hc⟩
  cases hstep with
  | store hown h => exact ⟨hkept, ht.inj⟩
  | start hpos => exact ⟨hkept, ht.inj⟩
  | @worker j b w w' db hw hlive h hdb =>
    have hnew : ∀ x ∈ t.sent, ∀ y ∈ b.sending j, x.call ≠ y.call := by
      intro x hx y hy hcall
      obtain ⟨args, p, hc⟩ := ht.calls x hx
      rw [hcall, (sending_new hdb hy).1, List.getElem?_eq_none le_rfl] at hc
      cases hc
    refine ⟨fun x hx => ?_, fun x hx y hy hcall => ?_⟩
    · rcases List.mem_append.mp hx with hold | hnew
      · exact hkept x hold
      · exact (sending_new hdb hnew).2
    · rcases List.mem_append.mp hx with hx | hx <;> rcases List.mem_append.mp hy with hy | hy
      · exact ht.inj x hx y hy hcall
      · exact absurd hcall (hnew x hx y hy)
      · exact absurd hcall.symm (hnew y hy x hx)
      · cases b with
        | completeSent i c =>
          exact (List.mem_singleton.mp hx).trans (List.mem_singleton.mp hy).symm
        | _ => cases hx

theorem Reachable.sent_write (h : s.Reachable) {x : Sent} (hx : x ∈ s.sent) {w w' : Write}
    (hw : w ∈ s.db.log) (hw' : w' ∈ s.db.log) (hcall : w.call = x.call)
    (hcall' : w'.call = x.call) : w.row.eventId = w'.row.eventId := by
  obtain ⟨args, p, hc⟩ := h.posted.calls x hx
  have hid : ∀ v ∈ s.db.log, v.call = x.call → v.row.eventId = args.id := by
    intro v hv hvc
    obtain ⟨call, hcall, hauth⟩ := h.db.accounted.authors v hv
    rw [hvc] at hcall
    obtain rfl := Option.some.inj (hc.symm.trans hcall)
    exact hauth.2
  rw [hid w hw hcall, hid w' hw' hcall']

/-! ## The rows that a run has moved -/

/-- Task `i` of worker `k` sent the completion that moved the row to `PROCESSED`. -/
def MovedBy (s : System) (k i : ℕ) (r : Row) : Prop :=
  ∃ w ∈ s.db.history r.eventId, w.isComplete = true ∧ ⟨w.call, k, i⟩ ∈ s.sent

/-- The rows moved to `PROCESSED` by completions that worker `k` sent. -/
def movedRows (s : System) (k : ℕ) : List Row :=
  s.db.events.filter fun r => (s.db.history r.eventId).any fun w =>
    w.isComplete && s.sent.any fun x => x.worker == k && x.call == w.call

theorem mem_movedRows {r : Row} :
    r ∈ s.movedRows k ↔ r ∈ s.db.events ∧ ∃ i, s.MovedBy k i r := by
  unfold movedRows MovedBy
  simp only [List.mem_filter, List.any_eq_true, Bool.and_eq_true, beq_iff_eq]
  refine and_congr_right fun _ => ⟨?_, ?_⟩
  · rintro ⟨w, hw, hcomplete, ⟨c, j, i⟩, hx, rfl, rfl⟩
    exact ⟨i, w, hw, hcomplete, hx⟩
  · rintro ⟨i, w, hw, hcomplete, hx⟩
    exact ⟨w, hw, hcomplete, _, hx, rfl, rfl⟩

theorem Reachable.movedRows_nodup (h : s.Reachable) : (s.movedRows k).Nodup :=
  (List.Nodup.of_map _ h.db.sound.ids).filter _

theorem Reachable.mover_unique (h : s.Reachable) {i j : ℕ} {r : Row} (hi : s.MovedBy k i r)
    (hj : s.MovedBy k j r) : i = j := by
  obtain ⟨w, hw, hcomplete, hx⟩ := hi
  obtain ⟨w', hw', hcomplete', hy⟩ := hj
  obtain ⟨hlog, hid⟩ := Database.mem_history.mp hw
  obtain ⟨hlog', hid'⟩ := Database.mem_history.mp hw'
  have heq := h.db.complete_unique hlog hlog' (hid.trans hid'.symm) hcomplete hcomplete'
  exact congrArg Sent.task (h.posted.inj _ hx _ hy (congrArg Write.call heq))

theorem Reachable.moved_unique (h : s.Reachable) {e : Execution} (hlink : e.Linked s k) {i : ℕ}
    {r r' : Row} (hr : r ∈ s.db.events) (hr' : r' ∈ s.db.events) (hi : s.MovedBy k i r)
    (hi' : s.MovedBy k i r') : r = r' := by
  obtain ⟨w, hw, -, hx⟩ := hi
  obtain ⟨w', hw', -, hx'⟩ := hi'
  obtain ⟨hlog, hid⟩ := Database.mem_history.mp hw
  obtain ⟨hlog', hid'⟩ := Database.mem_history.mp hw'
  have hcall := congrArg Sent.call (hlink.once _ hx _ hx' rfl rfl rfl)
  refine h.db.sound.eq_of_id hr hr' ?_
  rw [← hid, ← hid']
  exact h.sent_write hx hlog hlog' rfl hcall.symm

/-! ## The bounds -/

section Bounds

variable {e : Execution} (h : s.Reachable) (hlink : e.Linked s k)

include h hlink in
theorem processed_moved {i : ℕ} (hi : (i, .processed) ∈ e.counted) :
    ∃ r ∈ s.movedRows k, s.MovedBy k i r := by
  obtain ⟨x, hx, rfl, rfl, args, hc⟩ := hlink.told i true hi
  obtain ⟨w, hw, hcomplete, hcall⟩ := h.db.complete_written hc rfl
  obtain ⟨r, hr, hid⟩ := h.db.traced.known w (Database.mem_history.mp hw).1
  have hmoved : s.MovedBy x.worker x.task r := by
    refine ⟨w, ?_, hcomplete, by rw [hcall]; exact hx⟩
    exact Database.mem_history.mpr ⟨(Database.mem_history.mp hw).1, hid.symm⟩
  exact ⟨r, mem_movedRows.mpr ⟨hr, _, hmoved⟩, hmoved⟩

include h hlink in
theorem lost_wrote_nothing {i : ℕ} (hi : (i, .lost) ∈ e.counted) {x : Sent} (hx : x ∈ s.sent)
    (hk : x.worker = k) (htask : x.task = i) : s.db.written x.call = [] := by
  obtain ⟨y, hy, hyk, hytask, args, hc⟩ := hlink.told i false hi
  obtain rfl := hlink.once x hx y hy hk hyk (htask.trans hytask.symm)
  exact h.db.accounted.accounts x.call _ hc

include h hlink in
/-- A task that has moved a row was told so, was not told, or is abandoned. -/
theorem moved_counted (hacc : e.Accounted) (htasks : e.worker.tasks = []) {i : ℕ} {r : Row}
    (hi : s.MovedBy k i r) :
    (i, .processed) ∈ e.counted ∨ (i, .failed) ∈ e.counted ∨ i ∈ e.abandoned := by
  obtain ⟨w, hw, -, hx⟩ := hi
  have hcovered := (hacc.ledger.covered i).mp (hlink.sent _ hx rfl).1
  simp only [htasks, List.map_nil, List.not_mem_nil, false_or] at hcovered
  rcases hcovered with hid | hab
  · obtain ⟨⟨_, o⟩, hcounted, rfl⟩ := List.mem_map.mp hid
    cases o with
    | processed => exact .inl hcounted
    | failed => exact .inr (.inl hcounted)
    | lost =>
      have hnone := lost_wrote_nothing h hlink hcounted hx rfl rfl
      have hmem := Database.mem_written.mpr ⟨(Database.mem_history.mp hw).1, rfl⟩
      rw [hnone] at hmem
      cases hmem
  · exact .inr (.inr hab)

include h hlink in
theorem processed_le (hacc : e.Accounted) : e.worker.processed ≤ (s.movedRows k).length := by
  have hcard : (e.countedAs .processed).toFinset.card ≤ (s.movedRows k).toFinset.card := by
    refine Finset.card_le_card_of_forall_subsingleton (s.MovedBy k) ?_ ?_
    · intro i hi
      obtain ⟨r, hr, hmoved⟩ := processed_moved h hlink
        (Execution.mem_countedAs.mp (List.mem_toFinset.mp hi))
      exact ⟨r, List.mem_toFinset.mpr hr, hmoved⟩
    · rintro r - i ⟨-, hi⟩ j ⟨-, hj⟩
      exact h.mover_unique hi hj
  rwa [List.toFinset_card_of_nodup hacc.countedAs_nodup, hacc.length_countedAs,
    List.toFinset_card_of_nodup h.movedRows_nodup] at hcard

include h hlink in
theorem moved_le (hacc : e.Accounted) (htasks : e.worker.tasks = []) :
    (s.movedRows k).length ≤ e.worker.processed + e.worker.failed + e.abandoned.length := by
  have hcard : (s.movedRows k).toFinset.card ≤
      (e.countedAs .processed ++ e.countedAs .failed ++ e.abandoned).toFinset.card := by
    refine Finset.card_le_card_of_forall_subsingleton (fun r i => s.MovedBy k i r) ?_ ?_
    · intro r hr
      obtain ⟨-, i, hi⟩ := mem_movedRows.mp (List.mem_toFinset.mp hr)
      refine ⟨i, ?_, hi⟩
      simpa [Execution.mem_countedAs, or_assoc] using moved_counted h hlink hacc htasks hi
    · rintro i - r ⟨hr, hi⟩ r' ⟨hr', hi'⟩
      have hmem : ∀ q ∈ (s.movedRows k).toFinset, q ∈ s.db.events := fun q hq =>
        (mem_movedRows.mp (List.mem_toFinset.mp hq)).1
      exact h.moved_unique hlink (hmem r hr) (hmem r' hr') hi hi'
  rw [List.toFinset_card_of_nodup h.movedRows_nodup] at hcard
  refine (hcard.trans (List.toFinset_card_le _)).trans_eq ?_
  rw [List.length_append, List.length_append, hacc.length_countedAs, hacc.length_countedAs]
  rfl

end Bounds

/-- **The report brackets the table.** Of the rows of the table, those that completions of this run
have moved to `PROCESSED` are at least as many as it reports processed, and at most as many as it
reports processed, failed or abandoned. The completion of a claim that is counted as lost has
changed nothing. -/
theorem report_brackets {clock : Timestamp} {acts : List SystemAct}
    (hrun : run step (empty clock) acts = some s) {w : Worker} (hk : s.workers[k]? = some w)
    {r : RunReport} (hphase : w.phase = .stopped r) :
    r.processed ≤ (s.movedRows k).length ∧
      (s.movedRows k).length ≤ r.processed + r.failed + r.abandoned ∧
      (∀ q ∈ s.movedRows k, q.status = .processed) ∧
      ∃ e, run Execution.step (.start w.owner w.config) (acts.filterMap (·.ofWorker k)) = some e ∧
        e.worker = w ∧ ∀ i, (i, .lost) ∈ e.counted →
          ∀ x ∈ s.sent, x.worker = k → x.task = i → s.db.written x.call = [] := by
  have h : s.Reachable := ⟨clock, acts, hrun⟩
  obtain ⟨e, he, rfl, hlink⟩ := executions hrun hk
  have hacc := (Execution.reachable_of_run he).accounted
  obtain ⟨htasks, hr⟩ := hacc.closing.stopped r hphase
  refine ⟨?_, ?_, fun q hq => ?_, e, he, rfl, fun i hi x hx hxk htask =>
    lost_wrote_nothing h hlink hi hx hxk htask⟩
  · rw [hr]
    exact processed_le h hlink hacc
  · rw [hr]
    exact moved_le h hlink hacc htasks
  · obtain ⟨hq, i, v, hv, hcomplete, -⟩ := mem_movedRows.mp hq
    exact h.db.processed_of_write hq hv hcomplete

/-- The worker claims one event and sends its completion, and is then shut down: the task is aborted
before the answer comes. -/
def abandonedRun : List SystemAct :=
  let args : AdmitArgs :=
    ⟨⟨7⟩, "orders-api", "order.created", .bool true, "k", List.replicate 32 0⟩
  [.store (.begin (.admitEvent args)), .store (.advance 0), .store (.advance 0),
    .store (.signal 0 .reply), .start ⟨1⟩ ⟨1, 10⟩,
    .worker 0 (.claimSent 1), .store (.advance 1), .store (.advance 1), .store (.advance 1),
    .worker 0 (.claimReturned (.ok [overtakenClaim 1 false])), .worker 0 .spawned,
    .worker 0 .spawnDone, .worker 0 .shutdown, .worker 0 (.processReturned 0 true),
    .worker 0 (.completeSent 0 2), .worker 0 .timedOut, .worker 0 (.cancelled 0),
    .worker 0 (.joined 0), .worker 0 .allJoined]

end System

namespace System

attribute [local instance] SampleFloat.serde

/-- The completion that it sent commits after the report was made. -/
theorem report_brackets_abandoned :
    ∃ s w, run step (empty 0) (abandonedRun ++ [.store (.advance 2), .store (.advance 2),
        .store (.advance 2)]) = some s ∧ s.workers[0]? = some w ∧
      w.phase = .stopped ⟨0, 0, 0, true, 1⟩ ∧ (s.movedRows 0).map (·.eventId) = [⟨7⟩] ∧
      (s.movedRows 0).length ≤ 0 + 0 + 1 := by
  have hobs : (run step (empty 0) (abandonedRun ++ [.store (.advance 2), .store (.advance 2),
      .store (.advance 2)])).bind (fun s => s.workers[0]?.map fun w =>
        (w.phase, (s.movedRows 0).map (·.eventId))) =
          some (.stopped ⟨0, 0, 0, true, 1⟩, [⟨7⟩]) := by decide +kernel
  obtain ⟨s, hs, hobs⟩ := Option.bind_eq_some_iff.mp hobs
  obtain ⟨w, hw, hobs⟩ := Option.map_eq_some_iff.mp hobs
  obtain ⟨hphase, hmoved⟩ := Prod.mk.inj hobs
  exact ⟨s, w, hs, hw, hphase, hmoved, (report_brackets hs hw hphase).2.1⟩

end System

end PulseStream
