import PulseStream.System.Invariant
import PulseStream.Worker.Accounting

/-!
# The executions in a system

A worker stays within its concurrency in every execution (`within_concurrency`). Every worker of a
system is in an execution, the one that takes the worker's part in the run (`executions`): the
database returns no more claims than were asked for. `Linked` says what the records of that
execution mean for the calls of the database.
-/

namespace PulseStream

open Machine

/-- What the answer of `Store::complete` is counted as. -/
def Outcome.ofAnswer : Bool → Outcome
  | true => .processed
  | false => .lost

/-! ## One step of a worker -/

namespace Worker

variable {w w' : Worker} {a : WorkerAct}

/-- While a claim is under way, the free slots stay as they were when it was sent. -/
theorem Steps.claiming (h : Steps w a w') {c : ℕ} (hphase : w'.phase = .claiming c) :
    (w.phase = .claiming c ∨ a = .claimSent c) ∧ w'.free = w.free := by
  have hset : ∀ {t : Task} {stage : TaskStage}, (w.setStage t stage).free = w.free := by
    intro t stage
    unfold free
    rw [setStage_length]
    rfl
  cases h with
  | joined ht hover hjoin =>
    rcases join_eq_some hjoin with ⟨n, hn, rfl⟩ | ⟨-, phase, hother, rfl⟩
    · rw [show (w.removeTask _).phase = w.phase from rfl, hn] at hphase
      cases hphase
    · rcases hother with rfl | rfl <;> cases hphase
  | processOk | processErr | panicked | sent | cancelled => exact ⟨.inl hphase, hset⟩
  | completed ht hstage result =>
    obtain ⟨p, f, l, heq⟩ := countCompletion_eq w _ result
    rw [heq] at hphase ⊢
    exact ⟨.inl hphase, hset⟩
  | claimSent hjoining hfree =>
    obtain rfl := Phase.claiming.inj hphase
    exact ⟨.inr rfl, rfl⟩
  | _ => cases hphase

theorem Steps.sent_kept (h : Steps w a w') {i c : ℕ} (hi : i < w.nextTask)
    (hsent : ∀ t ∈ w.tasks, t.id = i → t.stage = .completing c ∨ t.isOver = true) :
    i < w'.nextTask ∧ ∀ t ∈ w'.tasks, t.id = i → t.stage = .completing c ∨ t.isOver = true := by
  -- a task that ends, and one that is not past its processor
  have hended : ∀ {j : ℕ} {t : Task} {stage : TaskStage}, w.task j = some t →
      (∀ u : Task, u.stage = stage → u.isOver = true) →
        ∀ u ∈ (w.setStage t stage).tasks, u.id = i → u.stage = .completing c ∨ u.isOver = true := by
    intro j t stage ht hover u hu hid
    rcases mem_setStage hu with hold | rfl
    · exact hsent u hold hid
    · exact .inr (hover _ rfl)
  have hearly : ∀ {j : ℕ} {t : Task} {stage : TaskStage}, w.task j = some t →
      t.stage = .processing ∨ t.stage = .processed →
        ∀ u ∈ (w.setStage t stage).tasks, u.id = i → u.stage = .completing c ∨ u.isOver = true := by
    intro j t stage ht hstage u hu hid
    rcases mem_setStage hu with hold | rfl
    · exact hsent u hold hid
    · rcases hsent t (task_mem ht) hid with h | h <;> rcases hstage with h' | h' <;>
        simp_all [Task.isOver]
  cases h with
  | joined ht hover hjoin =>
    rw [(join_some hjoin).1]
    have hnext : w'.nextTask = w.nextTask := by
      rcases join_eq_some hjoin with ⟨n, -, rfl⟩ | ⟨-, phase, -, rfl⟩ <;> rfl
    exact ⟨hnext ▸ hi, fun t ht => hsent t (List.mem_of_mem_filter ht)⟩
  | processOk ht hstage => exact ⟨hi, hearly ht (.inl hstage)⟩
  | sent ht hstage => exact ⟨hi, hearly ht (.inr hstage)⟩
  | processErr ht hstage => exact ⟨hi, hended ht fun u hu => by simp [Task.isOver, hu]⟩
  | panicked ht hstage => exact ⟨hi, hended ht fun u hu => by simp [Task.isOver, hu]⟩
  | cancelled ht hphase hover => exact ⟨hi, hended ht fun u hu => by simp [Task.isOver, hu]⟩
  | completed ht hstage result =>
    obtain ⟨p, f, l, heq⟩ := countCompletion_eq w _ result
    rw [heq]
    exact ⟨hi, hended ht fun u hu => by simp [Task.isOver, hu]⟩
  | spawned hphase =>
    refine ⟨hi.trans (Nat.lt_succ_self _), fun t ht hid => ?_⟩
    rcases List.mem_append.mp ht with hold | hnew
    · exact hsent t hold hid
    · obtain rfl := List.mem_singleton.mp hnew
      exact absurd hid hi.ne'
  | _ => exact ⟨hi, hsent⟩

theorem Steps.counts_answer (h : Steps w a w') {i : ℕ} {b : Bool}
    (hx : (i, Outcome.ofAnswer b) ∈ w.counts a) : a = .completeReturned i (.ok b) := by
  cases h with
  | joined ht hover hjoin =>
    rw [counts_joined ht] at hx
    split_ifs at hx
    · cases b <;> simp [Outcome.ofAnswer] at hx
    · cases hx
  | processErr ht hstage => cases b <;> simp [counts, Outcome.ofAnswer] at hx
  | completed ht hstage result =>
    cases result with
    | error e => cases b <;> simp [counts, Outcome.ofAnswer] at hx
    | ok b' => cases b <;> cases b' <;> simp_all [counts, Outcome.ofAnswer]
  | _ => cases hx

end Worker

/-! ## Within the concurrency -/

namespace Execution

variable {owner : WorkerId} {config : WorkerRuntimeConfig} {e : Execution}

theorem Reachable.owner_eq (h : Reachable owner config e) : e.worker.owner = owner := by
  refine h.invariant (P := fun e => e.worker.owner = owner) rfl ?_
  rintro t a t' ht ⟨-, -, hw⟩
  exact hw.owner.trans ht

theorem concurrency_pos {lookup : Config.Lookup} {config : Config.WorkerRuntimeConfig}
    (h : Config.WorkerRuntimeConfig.fromLookup lookup = .ok config) : 0 < config.concurrency := by
  have hreads : lookup.Reads (fun _ => (none : Option Unit)) .workerConcurrency
      (.integer config.concurrency) := Config.WorkerRuntimeConfig.fromLookup_reads h rfl
  obtain ⟨text, -, -, hrange⟩ := hreads
  exact hrange.1

theorem lookup_entry {tasks : List Task} (hids : (tasks.map Task.id).Nodup) {t : Task}
    (ht : t ∈ tasks) : (tasks.map Task.entry).lookup t.id = some t.claim.event.id := by
  induction tasks with
  | nil => cases ht
  | cons u tasks ih =>
    obtain ⟨hu, hids⟩ := List.nodup_cons.mp hids
    rcases List.mem_cons.mp ht with rfl | ht
    · simp [Task.entry]
    · have hne : t.id ≠ u.id := fun hid => hu (hid ▸ List.mem_map_of_mem ht)
      rw [← ih hids ht]
      simp only [List.map_cons, Task.entry, List.lookup_cons, beq_eq_false_iff_ne.mpr hne]

section Concurrency

variable {F : Type} [SerdeJson F]

/-- **The worker stays within its concurrency.** The `JoinSet` never holds more tasks than there are
slots, a claim asks for the free slots and there is one, every claim received gets one task, and
`running` is the table of the tasks in the `JoinSet`, so that a join finds its event. -/
theorem within_concurrency {lookup : Config.Lookup} {config : Config.WorkerRuntimeConfig}
    (hconfig : Config.WorkerRuntimeConfig.fromLookup lookup = .ok config)
    (h : Reachable owner config.limits e) :
    0 < config.concurrency ∧ e.worker.tasks.length ≤ config.concurrency ∧
      (∀ c w (db db' : Database), e.worker.step (.claimSent c) = some w →
        db.exchange e.worker (.claimSent c) = some db' →
          ∃ limit, limit + e.worker.tasks.length = config.concurrency ∧ 1 ≤ limit ∧
            db'.calls = db.calls ++ [(Request.claim ⟨owner, limit, config.limits.lease⟩).start
              db.clock]) ∧
      e.spawned.map Task.id = List.range e.worker.nextTask ∧
      (e.worker.phase ≠ .crashed →
        e.spawned.map Task.claim ++ e.worker.pending = e.received) ∧
      (∀ t ∈ e.worker.tasks, ⟨t.id, t.claim, .processing⟩ ∈ e.spawned) ∧
      (e.worker.tasks.map Task.id).Nodup ∧
      (e.worker.isAborted = false → e.worker.running = e.worker.tasks.map Task.entry) ∧
      ∀ i w, e.worker.step (.joined i) = some w → e.worker.isAborted = false →
        ∃ t ∈ e.worker.tasks, t.id = i ∧ e.worker.running.lookup i = some t.claim.event.id := by
  have htidy := h.tidy
  have hslots : e.worker.config.concurrency = config.concurrency := by
    rw [htidy.config]
    rfl
  refine ⟨concurrency_pos hconfig, ?_, ?_, htidy.ids, htidy.claims, htidy.origin,
    htidy.numbered.nodup, htidy.running, ?_⟩
  · rw [← hslots]
    exact (Nat.le_add_right _ _).trans htidy.bound
  · intro c w db db' hstep hdb
    refine ⟨e.worker.free, ?_, ?_, ?_⟩
    · have hbound := htidy.bound
      unfold Worker.free
      omega
    · cases Worker.step_spec hstep with
      | claimSent hphase hfree => exact hfree
    · cases Database.exchange_spec hdb with
      | claimSent hact =>
        obtain rfl := Option.some.inj hact
        rw [h.owner_eq, htidy.config]
      | alone hlocal => cases hlocal
  · intro i w hstep hkept
    cases Worker.step_spec hstep with
    | @joined _ t _ ht hover hjoin =>
      obtain rfl := Worker.task_id ht
      refine ⟨t, Worker.task_mem ht, rfl, ?_⟩
      rw [htidy.running hkept]
      exact lookup_entry htidy.numbered.nodup (Worker.task_mem ht)

end Concurrency

section Default

attribute [local instance] SampleFloat.serde

/-- Nothing is set, so there are four slots: two claims come, and one of the tasks panics. -/
theorem within_concurrency_default :
    ∃ config, Config.WorkerRuntimeConfig.fromLookup (fun _ => none) = .ok config ∧
      ∃ e, run step (start ⟨1⟩ config.limits) (drainedRun.take 6) = some e ∧
        e.worker.tasks.map Task.stage = [.processing, .panicked] ∧
        e.worker.tasks.length ≤ config.concurrency := by
  have hconfig : Config.WorkerRuntimeConfig.fromLookup (fun _ => none) =
      .ok ⟨4, ⟨250⟩, ⟨30000⟩, ⟨10000⟩⟩ := by decide
  have hrun : (run step (start ⟨1⟩ ⟨4, 30000000⟩) (drainedRun.take 6)).map
      (·.worker.tasks.map Task.stage) = some [.processing, .panicked] := by decide +kernel
  obtain ⟨e, he, hstages⟩ := Option.map_eq_some_iff.mp hrun
  exact ⟨_, hconfig, e, he, hstages, (within_concurrency hconfig ⟨_, he⟩).2.1⟩

end Default

end Execution

/-! ## The executions of the workers -/

/-- The part of worker `k` in an action. -/
def SystemAct.ofWorker (k : ℕ) : SystemAct → Option WorkerAct
  | .worker j a => if j = k then some a else none
  | _ => none

/-- What the records of worker `k` mean for the database: the claim under way asks for the free
slots, a task sends one completion, and what it has counted as processed or lost is the answer. -/
structure Execution.Linked (s : System) (k : ℕ) (e : Execution) : Prop where
  claiming : ∀ c, e.worker.phase = .claiming c → ∃ p, s.db.calls[c]? =
    some (.claim ⟨e.worker.owner, e.worker.free, e.worker.config.lease⟩ p)
  sent : ∀ x ∈ s.sent, x.worker = k → x.task < e.worker.nextTask ∧
    ∀ t ∈ e.worker.tasks, t.id = x.task → t.stage = .completing x.call ∨ t.isOver = true
  once : ∀ x ∈ s.sent, ∀ y ∈ s.sent, x.worker = k → y.worker = k → x.task = y.task → x = y
  told : ∀ i b, (i, Outcome.ofAnswer b) ∈ e.counted → ∃ x ∈ s.sent, x.worker = k ∧ x.task = i ∧
    ∃ args, s.db.calls[x.call]? = some (.complete args (.returned b))

namespace System

variable {F : Type} [SerdeJson F] {s s' : System} {a : SystemAct} {k : ℕ} {e : Execution}

theorem linked_mono (h : e.Linked s k) (hext : s.Extends s')
    (hsent : ∀ x ∈ s'.sent, x.worker = k → x ∈ s.sent) : e.Linked s' k := by
  refine ⟨fun c hphase => ?_, fun x hx hk => h.sent x (hsent x hx hk) hk, ?_,
    fun i b hcounted => ?_⟩
  · obtain ⟨p, hc⟩ := h.claiming c hphase
    exact hext.carries.claim hc
  · intro x hx y hy hxk hyk htask
    exact h.once x (hsent x hx hxk) y (hsent y hy hyk) hxk hyk htask
  · obtain ⟨x, hx, hxk, htask, args, hc⟩ := h.told i b hcounted
    exact ⟨x, hext.sent hx, hxk, htask, args, hext.carries.returned hc rfl⟩

section Worker

variable {w' : Worker} {b : WorkerAct} {db : Database}

theorem received_length (hs : s.Reachable) (h : e.Linked s k) (hdb : s.db.Exchange e.worker b db) :
    b.received.length ≤ e.worker.free := by
  cases hdb with
  | @claimReturned c args grants claims _ hphase hc hclaims hact =>
    obtain ⟨p, hp⟩ := h.claiming c hphase
    obtain ⟨rfl, rfl⟩ := Call.claim.inj (Option.some.inj (hc.symm.trans hp))
    show claims.length ≤ _
    rw [← (decodeClaims_eq_ok hclaims).2.length_eq]
    exact hs.db.grants_length hc
  | alone hlocal =>
    cases b with
    | claimReturned result =>
      cases result with
      | error e => exact Nat.zero_le _
      | ok claims => cases hlocal
    | _ => exact Nat.zero_le _
  | _ => exact Nat.zero_le _

variable (h : e.Linked s k) (hw : e.worker.Steps b w') (hdb : s.db.Exchange e.worker b db)
  (hext : s.Extends s') (hs' : s'.db = db) (hsent : s'.sent = s.sent ++ b.sending k)

include h hw hdb hext hs' in
theorem claiming_step {c : ℕ} (hphase : w'.phase = .claiming c) :
    ∃ p, s'.db.calls[c]? = some (.claim ⟨w'.owner, w'.free, w'.config.lease⟩ p) := by
  obtain ⟨hold | rfl, hfree⟩ := hw.claiming hphase
  · obtain ⟨p, hc⟩ := h.claiming c hold
    rw [hw.owner, hfree, hw.effect.config]
    exact hext.carries.claim hc
  · rw [hw.owner, hfree, hw.effect.config]
    cases hdb with
    | claimSent hact =>
      obtain rfl := Option.some.inj hact
      obtain ⟨p, hp⟩ := Call.of_request_claim (Request.start_request
        (.claim ⟨e.worker.owner, e.worker.free, e.worker.config.lease⟩) s.db.clock)
      refine ⟨p, ?_⟩
      rw [hs', ← hp]
      exact List.getElem?_concat_length
    | alone hlocal => cases hlocal

include h hw hsent in
theorem sent_step (hnum : e.worker.Numbered) {x : Sent} (hx : x ∈ s'.sent) (hk : x.worker = k) :
    x.task < w'.nextTask ∧
      ∀ t ∈ w'.tasks, t.id = x.task → t.stage = .completing x.call ∨ t.isOver = true := by
  rw [hsent] at hx
  rcases List.mem_append.mp hx with hold | hnew
  · obtain ⟨hlt, hstage⟩ := h.sent x hold hk
    exact hw.sent_kept hlt hstage
  · cases hw with
    | @sent i c t ht hstage =>
      obtain rfl := List.mem_singleton.mp hnew
      obtain rfl := Worker.task_id ht
      refine ⟨hnum.fresh t (Worker.task_mem ht), fun u hu hid => ?_⟩
      rcases Ledger.mem_moved hu with rfl | ⟨-, hne⟩
      · exact .inl rfl
      · exact absurd hid hne
    | _ => cases hnew

include h hw in
theorem not_sent {x y : Sent} (hx : x ∈ s.sent) (hk : x.worker = k) (hy : y ∈ b.sending k) :
    x.task ≠ y.task := by
  cases hw with
  | @sent i c t ht hstage =>
    obtain rfl := List.mem_singleton.mp hy
    intro htask
    rcases (h.sent x hx hk).2 t (Worker.task_mem ht) ((Worker.task_id ht).trans htask.symm) with
      hcompleting | hover
    · rw [hstage] at hcompleting
      cases hcompleting
    · simp [Task.isOver, hstage] at hover
  | _ => cases hy

include h hw hsent in
theorem once_step {x y : Sent} (hx : x ∈ s'.sent) (hy : y ∈ s'.sent) (hxk : x.worker = k)
    (hyk : y.worker = k) (htask : x.task = y.task) : x = y := by
  rw [hsent] at hx hy
  rcases List.mem_append.mp hx with hx | hx <;> rcases List.mem_append.mp hy with hy | hy
  · exact h.once x hx y hy hxk hyk htask
  · exact absurd htask (not_sent h hw hx hxk hy)
  · exact absurd htask.symm (not_sent h hw hy hyk hx)
  · cases b with
    | completeSent i c => exact (List.mem_singleton.mp hx).trans (List.mem_singleton.mp hy).symm
    | _ => cases hx

include h hw hdb hext hs' in
theorem told_step (hb : e.worker.Backed s k) {i : ℕ} {answer : Bool}
    (hx : (i, Outcome.ofAnswer answer) ∈ e.counted ++ e.worker.counts b) :
    ∃ x ∈ s'.sent, x.worker = k ∧ x.task = i ∧
      ∃ args, s'.db.calls[x.call]? = some (.complete args (.returned answer)) := by
  rcases List.mem_append.mp hx with hold | hnew
  · obtain ⟨x, hx, hxk, htask, args, hc⟩ := h.told i answer hold
    exact ⟨x, hext.sent hx, hxk, htask, args, hext.carries.returned hc rfl⟩
  · obtain rfl := hw.counts_answer hnew
    cases hdb with
    | @completeReturned _ c t _ _ ht hstage hc hact =>
      have hmem := (hb.completing t (Worker.task_mem ht) c hstage).1
      refine ⟨_, hext.sent hmem, rfl, Worker.task_id ht, ⟨t.claim.event.id, e.worker.owner⟩, ?_⟩
      rw [hs']
      exact Database.step_signal hc rfl hact
    | alone hlocal => cases hlocal

include h hext hs' hsent in
theorem execution_step (hs : s.Reachable) (hk : s.workers[k]? = some e.worker)
    (hnum : e.worker.Numbered) (hstep : e.worker.step b = some w')
    (hact : s.db.exchange e.worker b = some db) :
    ∃ e', e.step b = some e' ∧ e'.worker = w' ∧ e'.Linked s' k := by
  have hw := Worker.step_spec hstep
  have hdb := Database.exchange_spec hact
  have hback := hs.consistent.workers k _ hk
  exact ⟨_, Execution.step_eq (received_length hs h hdb) hstep, rfl,
    fun c hc => claiming_step h hw hdb hext hs' hc,
    fun x hx hxk => sent_step h hw hsent hnum hx hxk,
    fun x hx y hy hxk hyk htask => once_step h hw hsent hx hy hxk hyk htask,
    fun i answer hx => told_step h hw hdb hext hs' hback hx⟩

end Worker

theorem Reachable.sent_worker (h : s.Reachable) {x : Sent} (hx : x ∈ s.sent) :
    x.worker < s.workers.length := by
  revert x
  refine h.invariant (P := fun t => ∀ {x : Sent}, x ∈ t.sent → x.worker < t.workers.length) ?_ ?_
  · intro clock x hx
    cases hx
  · intro t a t' _ hP hstep x hx
    cases hstep with
    | store hown h => exact hP hx
    | start hpos =>
      rw [List.length_append]
      exact (hP hx).trans_le (Nat.le_add_right _ _)
    | @worker j b w w' db hw hlive h hdb =>
      rw [List.length_set]
      rcases List.mem_append.mp hx with hold | hnew
      · exact hP hold
      · cases b with
        | completeSent i c =>
          obtain rfl := List.mem_singleton.mp hnew
          exact (List.getElem?_eq_some_iff.mp hw).1
        | _ => cases hnew

theorem no_part {clock : Timestamp} {acts : List SystemAct}
    (h : run step (empty clock) acts = some s) (hk : s.workers.length ≤ k) :
    acts.filterMap (·.ofWorker k) = [] := by
  refine run_invariant (P := fun acts t => t.workers.length ≤ k →
    acts.filterMap (·.ofWorker k) = []) (fun _ => rfl) ?_ h hk
  intro acts t a t' _ hP ha hk
  rw [List.filterMap_append, List.append_eq_nil_iff]
  cases step_spec ha with
  | store hown h => exact ⟨hP hk, rfl⟩
  | start hpos =>
    rw [List.length_append] at hk
    exact ⟨hP ((Nat.le_add_right _ _).trans hk), rfl⟩
  | @worker j b w w' db hw hlive h hdb =>
    rw [List.length_set] at hk
    have hne : j ≠ k := ((List.getElem?_eq_some_iff.mp hw).1.trans_le hk).ne
    exact ⟨hP hk, by simp [SystemAct.ofWorker, hne]⟩

/-- **Projection to a worker.** The part that a worker has in a run of the system is a run of an
execution, whose records are true of the database. -/
theorem executions {clock : Timestamp} {acts : List SystemAct}
    (h : run step (empty clock) acts = some s) {w : Worker} (hk : s.workers[k]? = some w) :
    ∃ e, run Execution.step (.start w.owner w.config) (acts.filterMap (·.ofWorker k)) = some e ∧
      e.worker = w ∧ e.Linked s k := by
  revert k w
  refine run_invariant (P := fun acts t => ∀ {k : ℕ} {w : Worker}, t.workers[k]? = some w →
    ∃ e, run Execution.step (.start w.owner w.config) (acts.filterMap (·.ofWorker k)) = some e ∧
      e.worker = w ∧ e.Linked t k) ?_ ?_ h
  · intro k w hk
    simp [empty] at hk
  intro acts t a t' hrun hP ha k w hk
  have ht : t.Reachable := ⟨clock, acts, hrun⟩
  have hext := (step_spec ha).extends
  rw [List.filterMap_append]
  -- a worker that has no part in the step
  have hother : ∀ {w : Worker}, t.workers[k]? = some w → a.ofWorker k = none →
      (∀ x ∈ t'.sent, x.worker = k → x ∈ t.sent) →
      ∃ e, run Execution.step (.start w.owner w.config)
        (acts.filterMap (·.ofWorker k) ++ [a].filterMap (·.ofWorker k)) = some e ∧
          e.worker = w ∧ e.Linked t' k := by
    intro w hk hpart hsent
    obtain ⟨e, he, hw, hlink⟩ := hP hk
    refine ⟨e, ?_, hw, linked_mono hlink hext hsent⟩
    simpa [hpart] using he
  cases a with
  | store a =>
    cases step_spec ha with
    | store hown hact => exact hother hk rfl fun x hx _ => hx
  | start owner config =>
    cases step_spec ha with
    | start hpos =>
      rw [List.getElem?_append] at hk
      split_ifs at hk with hlt
      · exact hother hk rfl fun x hx _ => hx
      · rw [List.getElem?_singleton] at hk
        split_ifs at hk
        obtain rfl := Option.some.inj hk
        have hold : ∀ x ∈ t.sent, x.worker ≠ k := fun x hx hxk => hlt (hxk ▸ ht.sent_worker hx)
        rw [no_part hrun (Nat.le_of_not_lt hlt)]
        exact ⟨_, rfl, rfl, fun c hc => (by cases hc), fun x hx hxk => absurd hxk (hold x hx),
          fun x hx y hy hxk => absurd hxk (hold x hx), fun i b hb => (by cases hb)⟩
  | worker j b =>
    obtain ⟨w₀, w', db, hw₀, hw', hdb, rfl⟩ := step_worker ha
    rw [List.getElem?_set] at hk
    split_ifs at hk with hjk hlt
    · subst hjk
      obtain rfl := Option.some.inj hk
      obtain ⟨e, he, rfl, hlink⟩ := hP hw₀
      have hsteps := Worker.step_spec hw'
      have hnum := (Execution.reachable_of_run he).tidy.numbered
      obtain ⟨e', he', rfl, hlink'⟩ := execution_step hlink hext rfl rfl ht hw₀ hnum hw' hdb
      have hpart : [SystemAct.worker j b].filterMap (·.ofWorker j) = [b] := by
        simp [SystemAct.ofWorker]
      rw [hsteps.owner, hsteps.effect.config, hpart]
      exact ⟨e', run_append he (run_cons_eq_some.mpr ⟨_, he', rfl⟩), rfl, hlink'⟩
    · refine hother hk (by simp [SystemAct.ofWorker, hjk]) fun x hx hxk => ?_
      rcases List.mem_append.mp hx with hold | hnew
      · exact hold
      · cases b with
        | completeSent i c =>
          obtain rfl := List.mem_singleton.mp hnew
          exact absurd hxk hjk
        | _ => cases hnew

theorem Reachable.numbered (h : s.Reachable) {w : Worker} (hk : s.workers[k]? = some w) :
    w.Numbered := by
  obtain ⟨clock, acts, hrun⟩ := h
  obtain ⟨e, he, rfl, -⟩ := executions hrun hk
  exact (Execution.reachable_of_run he).tidy.numbered

theorem Reachable.reports (h : s.Reachable) {w : Worker} (hk : s.workers[k]? = some w)
    {report : RunReport} (hphase : w.phase = .stopped report) : ∃ b n, report = w.report b n := by
  obtain ⟨clock, acts, hrun⟩ := h
  obtain ⟨e, he, rfl, -⟩ := executions hrun hk
  exact ⟨_, _, ((Execution.reachable_of_run he).accounted.closing.stopped report hphase).2⟩

end System

end PulseStream
