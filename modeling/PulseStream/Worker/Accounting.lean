import PulseStream.Worker.Execution

/-!
# Accounting for claims

Every claim a worker has received is counted once, still has its task, or was abandoned at the
shutdown (`Ledger`). A run that drains counts every claim (`drained_accounts`). After a timeout,
`abandoned` is the length of the `JoinSet`, and that may hold tasks whose outcome is counted: the
schedules without such a task are those of `JoinedInTime` (`timed_out_accounts_iff`).
-/

namespace PulseStream

open Machine

/-- The counter of an outcome. -/
def Worker.counter (w : Worker) : Outcome → ℕ
  | .processed => w.processed
  | .failed => w.failed
  | .lost => w.lostClaims

/-- The task that ends with an outcome of its own: its processor fails, or its completion is
answered. -/
def WorkerAct.returned : WorkerAct → Option ℕ
  | .processReturned i false => some i
  | .completeReturned i _ => some i
  | _ => none

/-! ## The ledger -/

/-- The tasks of a worker against the ids that are counted and those that are abandoned. -/
structure Ledger (w : Worker) (ids abandoned : List ℕ) : Prop where
  nodup : ids.Nodup
  finished : ∀ t ∈ w.tasks, t.id ∈ ids ↔ t.stage = .finished
  covered : ∀ i, i < w.nextTask ↔ i ∈ ids ∨ i ∈ w.tasks.map Task.id ∨ i ∈ abandoned

namespace Ledger

variable {w w' : Worker} {ids abandoned : List ℕ} {i : ℕ} {t : Task} {stage : TaskStage}

theorem congr (h : Ledger w ids abandoned) (htasks : w'.tasks = w.tasks)
    (hnext : w'.nextTask = w.nextTask) : Ledger w' ids abandoned := by
  refine ⟨h.nodup, ?_, ?_⟩
  · rw [htasks]
    exact h.finished
  · rw [htasks, hnext]
    exact h.covered

theorem mem_moved {t' : Task} (h : t' ∈ (w.setStage t stage).tasks) :
    t' = { t with stage := stage } ∨ (t' ∈ w.tasks ∧ t'.id ≠ t.id) := by
  obtain ⟨t₀, ht₀, -, hnew | ⟨rfl, hother⟩⟩ := Table.mem_put h
  · exact .inl (List.mem_singleton.mp hnew)
  · exact .inr ⟨ht₀, (hother _ (List.mem_singleton.mpr rfl)).symm⟩

theorem move (h : Ledger w ids abandoned) (ht : w.task i = some t) (hopen : t.stage ≠ .finished)
    (hstage : stage ≠ .finished) : Ledger (w.setStage t stage) ids abandoned := by
  refine ⟨h.nodup, fun t' ht' => ?_, fun j => ?_⟩
  · rcases mem_moved ht' with rfl | ⟨hmem, -⟩
    · exact iff_of_false (fun hid => hopen ((h.finished t (Worker.task_mem ht)).mp hid)) hstage
    · exact h.finished t' hmem
  · show j < w.nextTask ↔ _ ∨ j ∈ (w.setStage t stage).tasks.map Task.id ∨ _
    rw [w.setStage_ids]
    exact h.covered j

theorem finish (h : Ledger w ids abandoned) (ht : w.task i = some t) (hopen : t.stage ≠ .finished) :
    Ledger (w.setStage t .finished) (ids ++ [i]) abandoned := by
  obtain rfl := Worker.task_id ht
  have hnew : t.id ∉ ids := fun hid => hopen ((h.finished t (Worker.task_mem ht)).mp hid)
  refine ⟨List.nodup_append.mpr ⟨h.nodup, List.nodup_singleton _, ?_⟩, fun t' ht' => ?_,
    fun j => ?_⟩
  · rintro j hj _ hj' rfl
    exact hnew (List.mem_singleton.mp hj' ▸ hj)
  · rcases mem_moved ht' with rfl | ⟨hmem, hne⟩
    · exact iff_of_true (List.mem_append_right _ (List.mem_singleton.mpr rfl)) rfl
    · rw [List.mem_append, List.mem_singleton, or_iff_left hne]
      exact h.finished t' hmem
  · show j < w.nextTask ↔ _ ∨ j ∈ (w.setStage t .finished).tasks.map Task.id ∨ _
    rw [w.setStage_ids, h.covered j, List.mem_append, List.mem_singleton]
    have htask : t.id ∈ w.tasks.map Task.id := List.mem_map_of_mem (Worker.task_mem ht)
    constructor
    · rintro (hid | hrest)
      · exact .inl (.inl hid)
      · exact .inr hrest
    · rintro ((hid | rfl) | hrest)
      · exact .inl hid
      · exact .inr (.inl htask)
      · exact .inr hrest

/-- A task that leaves the `JoinSet`: counted, now or before, or abandoned. -/
theorem remove (h : Ledger w ids abandoned) (ht : w.task i = some t) {ids' : List ℕ}
    (hnodup : ids'.Nodup) (hids : ∀ j ≠ t.id, j ∈ ids' ↔ j ∈ ids)
    (hgone : t.id ∈ ids' ∨ t.id ∈ abandoned) : Ledger (w.removeTask t) ids' abandoned := by
  have htask : t.id ∈ w.tasks.map Task.id := List.mem_map_of_mem (Worker.task_mem ht)
  refine ⟨hnodup, fun t' ht' => ?_, fun j => ?_⟩
  · obtain ⟨hmem, hne⟩ := Worker.mem_removeTask ht'
    rw [hids _ hne]
    exact h.finished t' hmem
  · show j < w.nextTask ↔ _
    rw [h.covered j]
    by_cases hj : j = t.id
    · subst hj
      refine iff_of_true (.inr (.inl htask)) ?_
      rcases hgone with hid | hab
      · exact .inl hid
      · exact .inr (.inr hab)
    · rw [hids j hj]
      refine or_congr_right (or_congr_left ?_)
      simp only [Worker.removeTask, List.mem_map, List.mem_filter, decide_eq_true_iff]
      constructor
      · rintro ⟨t', hmem, rfl⟩
        exact ⟨t', ⟨hmem, hj⟩, rfl⟩
      · rintro ⟨t', ⟨hmem, -⟩, rfl⟩
        exact ⟨t', hmem, rfl⟩

theorem spawn (h : Ledger w ids abandoned) (claim : ClaimedEvent (Json Token)) :
    Ledger (w.spawn claim) ids abandoned := by
  refine ⟨h.nodup, fun t' ht' => ?_, fun j => ?_⟩
  · rcases List.mem_append.mp ht' with hmem | hnew
    · exact h.finished t' hmem
    · obtain rfl := List.mem_singleton.mp hnew
      refine iff_of_false (fun hid => ?_) (by simp)
      exact lt_irrefl _ ((h.covered w.nextTask).mpr (.inl hid))
  · show j < w.nextTask + 1 ↔ _ ∨ j ∈ (w.tasks ++ [_]).map Task.id ∨ _
    rw [Nat.lt_succ_iff_lt_or_eq, h.covered j, List.map_append, List.mem_append,
      List.map_singleton, List.mem_singleton]
    tauto

theorem abandon (h : Ledger w ids abandoned) :
    Ledger w ids (abandoned ++ w.tasks.map Task.id) := by
  refine ⟨h.nodup, h.finished, fun j => ?_⟩
  rw [h.covered j, List.mem_append]
  tauto

end Ledger

/-! ## One step -/

namespace Worker

variable {w w' : Worker} {a : WorkerAct}

theorem isAborted_of_aborting {n : ℕ} (h : w.phase = .aborting n) : w.isAborted = true := by
  simp [isAborted, h]

theorem isAborted_of_joining
    (h : w.phase = .joining ∨ w.phase = .selecting ∨ w.phase = .draining) :
    w.isAborted = false := by
  rcases h with h | h | h <;> simp [isAborted, h]

theorem counts_joined {i : ℕ} {t : Task} (ht : w.task i = some t) :
    w.counts (.joined i) =
      if w.isAborted = false ∧ t.stage = .panicked then [(i, .failed)] else [] := by
  simp [counts, ht]

theorem Steps.counter (h : Steps w a w') (o : Outcome) :
    w'.counter o = w.counter o + (w.counts a).countP fun x => x.2 = o := by
  cases h with
  | @joined i t w' ht hover hjoin =>
    rw [counts_joined ht]
    rcases join_eq_some hjoin with ⟨n, hphase, rfl⟩ | ⟨hphase, phase, -, rfl⟩
    · rw [isAborted_of_aborting hphase]
      cases o <;> rfl
    · simp only [isAborted_of_joining hphase, true_and]
      by_cases hpanic : t.stage = .panicked
      · cases o <;> simp [counter, recordJoin, removeTask, hpanic]
      · cases o <;> simp [counter, recordJoin, removeTask, hpanic]
  | completed ht hstage result =>
    cases result with
    | error e => cases o <;> rfl
    | ok b => cases b <;> cases o <;> rfl
  | _ => cases o <;> rfl

theorem Steps.abandons (h : Steps w a w') :
    w.abandons a = [] ∨ (w.phase = .draining ∧ w.abandons a = w.tasks.map Task.id ∧
      w'.phase = .aborting w.tasks.length) := by
  cases h with
  | timedOut hphase htasks => exact .inr ⟨hphase, rfl, rfl⟩
  | _ => exact .inl rfl

theorem Steps.counts_mem (h : Steps w a w') {x : ℕ × Outcome} (hx : x ∈ w.counts a) :
    ∃ t ∈ w.tasks, t.id = x.1 := by
  have hone : ∀ {i : ℕ} {t : Task} {o : Outcome}, w.task i = some t → x ∈ [(i, o)] →
      ∃ t ∈ w.tasks, t.id = x.1 := by
    intro i t o ht hx
    obtain rfl := List.mem_singleton.mp hx
    exact ⟨t, task_mem ht, task_id ht⟩
  cases h with
  | joined ht hover hjoin =>
    rw [counts_joined ht] at hx
    split_ifs at hx
    · exact hone ht hx
    · cases hx
  | processErr ht hstage => exact hone ht hx
  | completed ht hstage result =>
    cases result with
    | error e => exact hone ht hx
    | ok b => cases b <;> exact hone ht hx
  | _ => cases hx

theorem Steps.over_kept (h : Steps w a w') (hids : (w.tasks.map Task.id).Nodup) {t : Task}
    (ht : t ∈ w.tasks) (hover : t.isOver = true) : t ∈ w'.tasks ∨ a = .joined t.id := by
  -- a task that moves is another one
  have hmoved : ∀ {i : ℕ} {t' : Task} {stage : TaskStage}, w.task i = some t' →
      t'.isOver = false → t ∈ (w.setStage t' stage).tasks := by
    intro i t' stage ht' hother
    refine Table.mem_put_of_mem ht fun n hn hid => ?_
    obtain rfl := List.mem_singleton.mp hn
    obtain rfl := List.inj_on_of_nodup_map hids (task_mem ht') ht hid
    exact absurd (hover.symm.trans hother) (by decide)
  cases h with
  | @joined i t' _ ht' hover' hjoin =>
    by_cases hid : t.id = t'.id
    · exact .inr (by rw [hid, task_id ht'])
    · rw [(join_some hjoin).1]
      exact .inl (List.mem_filter.mpr ⟨ht, by simpa using hid⟩)
  | processOk ht' hstage | processErr ht' hstage | panicked ht' hstage | sent ht' hstage =>
    exact .inl (hmoved ht' (by simp [Task.isOver, hstage]))
  | cancelled ht' hphase hopen => exact .inl (hmoved ht' hopen)
  | completed ht' hstage result =>
    rw [(countCompletion_spec w _ result).1]
    exact .inl (hmoved ht' (by simp [Task.isOver, hstage]))
  | spawned hphase => exact .inl (List.mem_append_left _ ht)
  | _ => exact .inl ht

/-- A panicked task is joined by the loop, which counts it, or by the shutdown. -/
theorem Steps.panicked_kept (h : Steps w a w') (hids : (w.tasks.map Task.id).Nodup) {t : Task}
    (ht : t ∈ w.tasks) (hpanic : t.stage = .panicked) :
    t ∈ w'.tasks ∨ (t.id, .failed) ∈ w.counts a ∨ w.isAborted = true := by
  rcases h.over_kept hids ht (by simp [Task.isOver, hpanic]) with hkept | rfl
  · exact .inl hkept
  · by_cases habort : w.isAborted = true
    · exact .inr (.inr habort)
    · rw [counts_joined (Table.lookup_of_mem hids ht), if_pos ⟨by simpa using habort, hpanic⟩]
      exact .inr (.inl (List.mem_singleton.mpr rfl))

theorem Steps.aborting (h : Steps w a w') {n : ℕ} (hphase : w'.phase = .aborting n) :
    (w.phase = .aborting n ∧ ∀ i ∈ w'.tasks.map Task.id, i ∈ w.tasks.map Task.id) ∨
      (w.phase = .draining ∧ n = w.tasks.length ∧ w'.tasks = w.tasks ∧ a = .timedOut) := by
  cases h with
  | joined ht hover hjoin =>
    rcases join_eq_some hjoin with ⟨m, hm, rfl⟩ | ⟨-, phase, hother, rfl⟩
    · exact .inl ⟨hphase, (List.filter_sublist.map _).subset⟩
    · rcases hother with rfl | rfl <;> cases hphase
  | processOk | processErr | panicked | sent | cancelled =>
    refine .inl ⟨hphase, fun i hi => ?_⟩
    rwa [← w.setStage_ids]
  | completed ht hstage result =>
    obtain ⟨p, f, l, heq⟩ := countCompletion_eq w _ result
    rw [heq] at hphase ⊢
    refine .inl ⟨hphase, fun i hi => ?_⟩
    rwa [← w.setStage_ids]
  | timedOut hdraining htasks =>
    obtain rfl := Phase.aborting.inj hphase
    exact .inr ⟨hdraining, rfl, rfl, rfl⟩
  | _ => cases hphase

theorem Steps.aborts (h : Steps w a w') (hlive : w.isLive = true) (habort : w'.isAborted = true)
    (hcrash : w'.phase ≠ .crashed) :
    a = .timedOut ∨ w.isAborted = true ∧ w.phase ≠ .crashed := by
  have hgo : ∀ n, w.phase = .aborting n → w.isAborted = true ∧ w.phase ≠ .crashed :=
    fun n hphase => ⟨isAborted_of_aborting hphase, by simp [hphase]⟩
  cases hphase : w'.phase with
  | aborting n =>
    rcases h.aborting hphase with ⟨hold, -⟩ | ⟨-, -, -, rfl⟩
    · exact .inr (hgo n hold)
    · exact .inl rfl
  | stopped r =>
    obtain ⟨-, ⟨-, rfl⟩ | ⟨n, hold, -⟩⟩ := h.reports hlive hphase
    · simp [Worker.isAborted, hphase, report] at habort
    · exact .inr (hgo n hold)
  | crashed => exact absurd hphase hcrash
  | _ => simp [Worker.isAborted, hphase] at habort

theorem Steps.returned (h : Steps w a w') {i : ℕ} (ha : a.returned = some i) :
    ∃ t ∈ w'.tasks, t.id = i ∧ t.stage = .finished := by
  cases h with
  | processErr ht hstage =>
    obtain rfl := Option.some.inj ha
    have hmoved := task_setStage ht .finished
    exact ⟨_, task_mem hmoved, task_id hmoved, rfl⟩
  | completed ht hstage result =>
    obtain rfl := Option.some.inj ha
    rw [(countCompletion_spec w _ result).1]
    have hmoved := task_setStage ht .finished
    exact ⟨_, task_mem hmoved, task_id hmoved, rfl⟩
  | _ => cases ha

theorem Steps.finished_origin (h : Steps w a w') {t : Task} (ht : t ∈ w'.tasks)
    (hdone : t.stage = .finished) : t ∈ w.tasks ∨ a.returned = some t.id := by
  cases h with
  | joined ht' hover hjoin =>
    rw [(join_some hjoin).1] at ht
    exact .inl (List.mem_of_mem_filter ht)
  | processErr ht' hstage =>
    rcases mem_setStage ht with hmem | rfl
    · exact .inl hmem
    · exact .inr (congrArg some (task_id ht').symm)
  | completed ht' hstage result =>
    rw [(countCompletion_spec w _ result).1] at ht
    rcases mem_setStage ht with hmem | rfl
    · exact .inl hmem
    · exact .inr (congrArg some (task_id ht').symm)
  | processOk | panicked | sent | cancelled =>
    rcases mem_setStage ht with hmem | rfl
    · exact .inl hmem
    · cases hdone
  | spawned hphase =>
    rcases List.mem_append.mp ht with hmem | hnew
    · exact .inl hmem
    · obtain rfl := List.mem_singleton.mp hnew
      cases hdone
  | _ => exact .inl ht

theorem Steps.joined_gone (h : Steps w a w') (hnum : w.Numbered) {i : ℕ}
    (hi : a = .joined i ∨ i < w.nextTask ∧ ∀ t ∈ w.tasks, t.id ≠ i) :
    i < w'.nextTask ∧ ∀ t ∈ w'.tasks, t.id ≠ i := by
  have hnext : w.nextTask ≤ w'.nextTask := by
    rcases h.spawns with ⟨-, hsame⟩ | ⟨claim, -, hone, -⟩ <;> omega
  rcases hi with rfl | ⟨hlt, hgone⟩
  · cases h with
    | joined ht hover hjoin =>
      obtain rfl := task_id ht
      refine ⟨(hnum.fresh _ (task_mem ht)).trans_le hnext, fun t' ht' => ?_⟩
      rw [(join_some hjoin).1] at ht'
      simpa using (List.mem_filter.mp ht').2
  · refine ⟨hlt.trans_le hnext, fun t' ht' => ?_⟩
    cases h.tasks ht' with
    | kept hold => exact hgone _ hold
    | spawned hphase => exact hlt.ne'
    | @ended _ t stage hold hover => exact hgone t hold
    | @processed t hold => exact hgone t (task_mem hold)
    | @sent c t hold hstage => exact hgone t (task_mem hold)

/-- The shutdown counts nothing; a task that returns counts itself. -/
theorem Steps.counts_of_aborted (h : Steps w a w') (habort : w.isAborted = true) :
    w.counts a = [] ↔ a.returned = none := by
  cases h with
  | joined ht hover hjoin =>
    rw [counts_joined ht, if_neg (by simp [habort])]
    exact iff_of_true rfl rfl
  | processErr ht hstage => exact iff_of_false (by simp [counts]) (by simp [WorkerAct.returned])
  | completed ht hstage result =>
    refine iff_of_false ?_ (by simp [WorkerAct.returned])
    cases result with
    | error e => simp [counts]
    | ok b => cases b <;> simp [counts]
  | _ => exact iff_of_true rfl rfl

end Worker

namespace Execution

variable {owner : WorkerId} {config : WorkerRuntimeConfig} {e e' : Execution} {a : WorkerAct}

/-- The tasks whose outcome is counted. -/
def countedIds (e : Execution) : List ℕ := e.counted.map Prod.fst

/-- What the shutdown leaves of the tasks, and what it reports. -/
structure Closing (e : Execution) : Prop where
  cancelled : ∀ t ∈ e.worker.tasks, t.stage = .cancelled → e.worker.isAborted = true
  nodup : e.abandoned.Nodup
  kept : e.worker.isAborted = false → e.abandoned = []
  aborting : ∀ n, e.worker.phase = .aborting n →
    n = e.abandoned.length ∧ ∀ t ∈ e.worker.tasks, t.id ∈ e.abandoned
  stopped : ∀ r, e.worker.phase = .stopped r →
    e.worker.tasks = [] ∧ r = e.worker.report r.timedOut e.abandoned.length

/-- The loop joins a task: its outcome has been counted, or it is a panic, which is counted now. -/
theorem ledger_recordJoin (h : Ledger e.worker e.countedIds e.abandoned) (hclosing : e.Closing)
    {i : ℕ} {t : Task} (ht : e.worker.task i = some t) (hover : t.isOver = true)
    (hkept : e.worker.isAborted = false) :
    Ledger (e.worker.recordJoin t) (e.countedIds ++ (e.worker.counts (.joined i)).map Prod.fst)
      e.abandoned := by
  have hfinished := h.finished t (Worker.task_mem ht)
  rw [Worker.counts_joined ht]
  simp only [hkept, true_and]
  split_ifs with hpanic
  · have hnew : t.id ∉ e.countedIds := fun hid => by
      rw [hfinished.mp hid] at hpanic
      cases hpanic
    obtain rfl := Worker.task_id ht
    have hnodup : (e.countedIds ++ [t.id]).Nodup := by
      refine List.nodup_append.mpr ⟨h.nodup, List.nodup_singleton _, ?_⟩
      rintro j hj _ hj' rfl
      exact hnew (List.mem_singleton.mp hj' ▸ hj)
    exact (h.remove ht hnodup (fun j hj => by simp [hj]) (.inl (by simp))).congr rfl rfl
  · -- a task that is over, has not panicked and was not cancelled has finished
    have hdone : t.stage = .finished := by
      have hcancel := hclosing.cancelled t (Worker.task_mem ht)
      rw [hkept] at hcancel
      unfold Task.isOver at hover
      split at hover <;> simp_all
    rw [List.map_nil, List.append_nil]
    exact (h.remove ht h.nodup (fun _ _ => Iff.rfl) (.inl (hfinished.mpr hdone))).congr rfl rfl

theorem ledger_step (h : Ledger e.worker e.countedIds e.abandoned) (hclosing : e.Closing)
    (hstep : Steps e a e') : Ledger e'.worker e'.countedIds e'.abandoned := by
  obtain ⟨-, hlive, hw⟩ := hstep
  unfold countedIds
  simp only [List.map_append]
  cases hw with
  | @joined i t w' ht hover hjoin =>
    simp only [Worker.abandons, List.append_nil]
    rcases Worker.join_eq_some hjoin with ⟨n, hphase, rfl⟩ | ⟨hphase, phase, -, rfl⟩
    · rw [Worker.counts_joined ht, Worker.isAborted_of_aborting hphase, if_neg (by simp),
        List.map_nil, List.append_nil]
      have hab := (hclosing.aborting n hphase).2 t (Worker.task_mem ht)
      exact h.remove ht h.nodup (fun _ _ => Iff.rfl) (.inr hab)
    · have hkept := Worker.isAborted_of_joining hphase
      exact (ledger_recordJoin h hclosing ht hover hkept).congr rfl rfl
  | @processOk i t ht hstage =>
    simp only [Worker.counts, Worker.abandons, List.map_nil, List.append_nil]
    exact h.move ht (by simp [hstage]) (by simp)
  | @processErr i t ht hstage =>
    simp only [Worker.counts, Worker.abandons, List.append_nil]
    exact (h.finish ht (by simp [hstage])).congr rfl rfl
  | @panicked i t ht hstage =>
    simp only [Worker.counts, Worker.abandons, List.map_nil, List.append_nil]
    exact h.move ht (by simp [hstage]) (by simp)
  | @sent i c t ht hstage =>
    simp only [Worker.counts, Worker.abandons, List.map_nil, List.append_nil]
    exact h.move ht (by simp [hstage]) (by simp)
  | @cancelled i n t ht hphase hover =>
    simp only [Worker.counts, Worker.abandons, List.map_nil, List.append_nil]
    refine h.move ht (fun hdone => ?_) (by simp)
    simp [Task.isOver, hdone] at hover
  | @completed i c t ht hstage result =>
    obtain ⟨p, f, l, heq⟩ := Worker.countCompletion_eq e.worker t result
    have hcounts : (e.worker.counts (.completeReturned i result)).map Prod.fst = [i] := by
      cases result with
      | error e => rfl
      | ok b => cases b <;> rfl
    simp only [heq, hcounts, Worker.abandons, List.append_nil]
    exact (h.finish ht (by simp [hstage])).congr rfl rfl
  | spawned hphase =>
    simp only [Worker.counts, Worker.abandons, List.map_nil, List.append_nil]
    exact (h.spawn _).congr rfl rfl
  | timedOut hphase htasks =>
    simp only [Worker.counts, List.map_nil, List.append_nil]
    exact h.abandon.congr rfl rfl
  | _ =>
    simp only [Worker.counts, Worker.abandons, List.map_nil, List.append_nil]
    exact h.congr rfl rfl

theorem cancelled_step (h : e.Closing) (hlive : e.worker.isLive = true) {w : Worker}
    (hw : e.worker.Steps a w) {t : Task} (ht : t ∈ w.tasks) (hcancelled : t.stage = .cancelled) :
    w.isAborted = true := by
  have hold : t ∈ e.worker.tasks → w.isAborted = true := fun hmem =>
    hw.isAborted hlive (h.cancelled t hmem hcancelled)
  cases hw with
  | joined ht' hover hjoin =>
    rw [(Worker.join_some hjoin).1] at ht
    exact hold (List.mem_of_mem_filter ht)
  | processOk | processErr | panicked | sent =>
    rcases Worker.mem_setStage ht with hmem | rfl
    · exact hold hmem
    · cases hcancelled
  | completed ht' hstage result =>
    rw [(Worker.countCompletion_spec _ _ result).1] at ht
    rcases Worker.mem_setStage ht with hmem | rfl
    · exact hold hmem
    · cases hcancelled
  | cancelled ht' hphase hover => exact Worker.isAborted_of_aborting hphase
  | spawned hphase =>
    rcases List.mem_append.mp ht with hmem | hnew
    · exact hold hmem
    · obtain rfl := List.mem_singleton.mp hnew
      cases hcancelled
  | _ => exact hold ht

theorem Closing.step (h : e.Closing) (hids : (e.worker.tasks.map Task.id).Nodup)
    (hstep : Steps e a e') : e'.Closing := by
  obtain ⟨-, hlive, hw⟩ := hstep
  have hdraining : e.worker.phase = .draining → e.abandoned = [] := fun hphase =>
    h.kept (by simp [Worker.isAborted, hphase])
  refine ⟨fun t ht hc => cancelled_step h hlive hw ht hc, ?_, ?_, ?_, ?_⟩
  · rcases hw.abandons with hab | ⟨hphase, hab, -⟩
    · simpa [hab] using h.nodup
    · simpa [hab, hdraining hphase] using hids
  · intro hkept
    have hbefore : e.worker.isAborted = false := by
      refine Bool.eq_false_of_not_eq_true fun habort => ?_
      rw [hw.isAborted hlive habort] at hkept
      cases hkept
    rcases hw.abandons with hab | ⟨-, -, habort⟩
    · simpa [hab] using h.kept hbefore
    · rw [Worker.isAborted_of_aborting habort] at hkept
      cases hkept
  · intro n hphase
    rcases hw.aborting hphase with ⟨hold, hsub⟩ | ⟨hold, rfl, htasks, rfl⟩
    · obtain ⟨hn, hmem⟩ := h.aborting n hold
      have hnone : e.worker.abandons a = [] := by
        rcases hw.abandons with hab | ⟨hother, -⟩
        · exact hab
        · rw [hold] at hother
          cases hother
      refine ⟨by simpa [hnone] using hn, fun t ht => ?_⟩
      obtain ⟨t₀, ht₀, hid⟩ := List.mem_map.mp (hsub _ (List.mem_map_of_mem ht))
      exact List.mem_append_left _ (hid ▸ hmem t₀ ht₀)
    · refine ⟨by simp [Worker.abandons, hdraining hold], fun t ht => ?_⟩
      rw [htasks] at ht
      exact List.mem_append_right _ (List.mem_map_of_mem ht)
  · intro r hphase
    have hnone : e.worker.abandons a = [] := by
      rcases hw.abandons with hab | ⟨-, -, hother⟩
      · exact hab
      · rw [hphase] at hother
        cases hother
    simp only [hnone, List.append_nil]
    obtain ⟨htasks, ⟨hold, rfl⟩ | ⟨n, hold, rfl⟩⟩ := hw.reports hlive hphase
    · rw [hdraining hold]
      exact ⟨htasks, rfl⟩
    · rw [← (h.aborting n hold).1]
      exact ⟨htasks, rfl⟩

/-- Everything that is known of the claims of an execution. -/
structure Accounted (e : Execution) : Prop where
  ledger : Ledger e.worker e.countedIds e.abandoned
  closing : e.Closing
  counters : ∀ o, e.worker.counter o = e.counted.countP fun x => x.2 = o

theorem Reachable.accounted (h : Reachable owner config e) : e.Accounted := by
  have key : e.Tidy config ∧ e.Accounted := by
    refine h.invariant (P := fun e => e.Tidy config ∧ e.Accounted) ⟨tidy_start, ?_⟩ ?_
    · refine ⟨⟨List.nodup_nil, fun t ht => (by cases ht), fun i => ?_⟩,
        ⟨fun t ht => (by cases ht), List.nodup_nil, fun _ => rfl, fun n hn => (by cases hn),
          fun r hr => (by cases hr)⟩, fun o => by cases o <;> rfl⟩
      simp [start, Worker.start, countedIds]
    · rintro t a t' ⟨htidy, ht⟩ hstep
      refine ⟨htidy.step hstep, ledger_step ht.ledger ht.closing hstep,
        ht.closing.step htidy.numbered.nodup hstep, fun o => ?_⟩
      obtain ⟨-, -, hw⟩ := hstep
      rw [hw.counter, ht.counters o, List.countP_append]
  exact key.2

/-! ## The number of claims -/

theorem Accounted.length_counted (h : e.Accounted) :
    e.counted.length = e.worker.processed + e.worker.failed + e.worker.lostClaims := by
  have hp := h.counters .processed
  have hf := h.counters .failed
  have hl := h.counters .lost
  simp only [Worker.counter] at hp hf hl
  rw [hp, hf, hl]
  generalize e.counted = xs
  induction xs with
  | nil => rfl
  | cons x xs ih =>
    obtain ⟨i, o⟩ := x
    cases o <;> simp [ih] <;> omega

theorem Tidy.stopped (h : e.Tidy config) {r : RunReport} (hphase : e.worker.phase = .stopped r) :
    e.spawned.map Task.claim = e.received ∧ e.received.length = e.worker.nextTask := by
  have hclaims := h.claims (by rw [hphase]; simp)
  have hnil : e.worker.pending = [] := by simp [Worker.pending, hphase]
  rw [hnil, List.append_nil] at hclaims
  refine ⟨hclaims, ?_⟩
  have hlen := congrArg List.length h.ids
  rw [List.length_map, List.length_range] at hlen
  rw [← hclaims, List.length_map, hlen]

theorem Reachable.panic_counted {e₀ : Execution} (h : Reachable owner config e₀)
    (hrun : Reaches step e₀ e) {t : Task} (ht : t ∈ e₀.worker.tasks)
    (hpanic : t.stage = .panicked) :
    t ∈ e.worker.tasks ∨ (t.id, .failed) ∈ e.counted ∨ e.worker.isAborted = true := by
  have key : Reachable owner config e ∧
      (t ∈ e.worker.tasks ∨ (t.id, .failed) ∈ e.counted ∨ e.worker.isAborted = true) := by
    refine hrun.invariant (P := fun e => Reachable owner config e ∧
      (t ∈ e.worker.tasks ∨ (t.id, .failed) ∈ e.counted ∨ e.worker.isAborted = true))
      ⟨h, .inl ht⟩ ?_
    rintro u a u' - ⟨hu, hP⟩ ha
    refine ⟨hu.tail ha, ?_⟩
    obtain ⟨-, hlive, hw⟩ := step_spec ha
    rcases hP with hmem | hcounted | habort
    · rcases hw.panicked_kept hu.tidy.numbered.nodup hmem hpanic with hkept | hcounts | habort
      · exact .inl hkept
      · exact .inr (.inl (List.mem_append_right _ hcounts))
      · exact .inr (.inr (hw.isAborted hlive habort))
    · exact .inr (.inl (List.mem_append_left _ hcounted))
    · exact .inr (.inr (hw.isAborted hlive habort))
  exact key.2

/-- **A drained run accounts for every claim exactly once.** Nothing is abandoned and no task is
left. The claims are numbered by their tasks, and every number is counted once; a panic is counted
as failed, by the join. -/
theorem drained_accounts (h : Reachable owner config e) {r : RunReport}
    (hphase : e.worker.phase = .stopped r) (hdrained : r.timedOut = false) :
    r.abandoned = 0 ∧ e.worker.running = [] ∧ e.worker.tasks = [] ∧
      e.received.length = r.processed + r.failed + r.lostClaims ∧
      e.spawned.map Task.claim = e.received ∧
      e.spawned.map Task.id = List.range e.received.length ∧
      e.countedIds.Perm (List.range e.received.length) ∧
      (r.processed = e.counted.countP (fun x => x.2 = .processed) ∧
        r.failed = e.counted.countP (fun x => x.2 = .failed) ∧
        r.lostClaims = e.counted.countP (fun x => x.2 = .lost)) ∧
      ∀ e₀, Reachable owner config e₀ → Reaches step e₀ e → ∀ t ∈ e₀.worker.tasks,
        t.stage = .panicked → t.id ∉ e₀.countedIds ∧ (t.id, .failed) ∈ e.counted := by
  have hacc := h.accounted
  have htidy := h.tidy
  have hkept : e.worker.isAborted = false := by simp [Worker.isAborted, hphase, hdrained]
  obtain ⟨htasks, hr⟩ := hacc.closing.stopped r hphase
  have habandoned := hacc.closing.kept hkept
  obtain ⟨hclaims, hlen⟩ := htidy.stopped hphase
  have hperm : e.countedIds.Perm (List.range e.received.length) := by
    refine (List.perm_ext_iff_of_nodup hacc.ledger.nodup List.nodup_range).mpr fun i => ?_
    have hcovered := hacc.ledger.covered i
    simp only [htasks, habandoned, List.map_nil, List.not_mem_nil, or_false] at hcovered
    rw [List.mem_range, hlen, hcovered]
  have hcount : e.received.length = r.processed + r.failed + r.lostClaims := by
    have hids := hperm.length_eq
    rw [countedIds, List.length_map, List.length_range, hacc.length_counted] at hids
    rw [hr, ← hids]
    rfl
  refine ⟨by rw [hr, habandoned]; rfl, ?_, htasks, hcount, hclaims, hlen ▸ htidy.ids, hperm, ?_, ?_⟩
  · rw [htidy.running hkept, htasks]
    rfl
  · rw [hr]
    exact ⟨hacc.counters .processed, hacc.counters .failed, hacc.counters .lost⟩
  · intro e₀ h₀ hrun t ht hpanic
    refine ⟨fun hid => ?_, ?_⟩
    · rw [(h₀.accounted.ledger.finished t ht).mp hid] at hpanic
      cases hpanic
    · rcases h₀.panic_counted hrun ht hpanic with hmem | hcounted | habort
      · rw [htasks] at hmem
        cases hmem
      · exact hcounted
      · rw [hkept] at habort
        cases habort

/-- A claim of the event `id`, for the runs below. -/
def sampleClaim (id : ℕ) : ClaimedEvent (Json Token) :=
  ⟨⟨⟨id⟩, .ordersApi, .orderCreated, .bool true, 0⟩, 1, false⟩

/-- Two slots and three claims: one is completed, one panics, and for the third the completion
comes too late. -/
def drainedRun : List WorkerAct :=
  [.claimSent 0, .claimReturned (.ok [sampleClaim 7, sampleClaim 8]), .spawned, .spawned,
    .spawnDone, .processPanicked 1, .joined 1, .claimSent 1,
    .claimReturned (.ok [sampleClaim 9]), .spawned, .spawnDone, .processReturned 0 true,
    .processReturned 2 true, .completeSent 0 2, .completeSent 2 3,
    .completeReturned 2 (.ok false), .shutdown, .completeReturned 0 (.ok true), .joined 0,
    .joined 2, .drained]

theorem drained_accounts_sample :
    ∃ e, run step (start ⟨1⟩ ⟨2, 10⟩) drainedRun = some e ∧
      e.worker.phase = .stopped ⟨1, 1, 1, false, 0⟩ ∧ e.received.length = 1 + 1 + 1 := by
  have hrun : (run step (start ⟨1⟩ ⟨2, 10⟩) drainedRun).map (·.worker.phase) =
      some (.stopped ⟨1, 1, 1, false, 0⟩) := by decide +kernel
  obtain ⟨e, he, hphase⟩ := Option.map_eq_some_iff.mp hrun
  exact ⟨e, he, hphase, (drained_accounts ⟨_, he⟩ hphase rfl).2.2.2.1⟩

/-! ## After a timeout -/

/-- The tasks that returned in the course of `acts` and were not joined are the finished ones. -/
structure Returns (acts : List WorkerAct) (w : Worker) : Prop where
  kept : ∀ a ∈ acts, ∀ i ∈ a.returned,
    (∃ t ∈ w.tasks, t.id = i ∧ t.stage = .finished) ∨ .joined i ∈ acts
  finished : ∀ t ∈ w.tasks, t.stage = .finished → ∃ a ∈ acts, a.returned = some t.id
  joined : ∀ i, .joined i ∈ acts → i < w.nextTask ∧ ∀ t ∈ w.tasks, t.id ≠ i

theorem Returns.step {acts : List WorkerAct} {w w' : Worker} (h : Returns acts w)
    (hnum : w.Numbered) (hw : w.Steps a w') : Returns (acts ++ [a]) w' := by
  have hlast : ∀ {b : WorkerAct}, b ∈ acts ++ [a] → b ∈ acts ∨ a = b := by
    intro b hb
    rcases List.mem_append.mp hb with hb | hb
    · exact .inl hb
    · exact .inr (List.mem_singleton.mp hb).symm
  refine ⟨fun b hb i hi => ?_, fun t ht hdone => ?_, fun i hi => ?_⟩
  · rcases hlast hb with hb | rfl
    · rcases h.kept b hb i hi with ⟨t, ht, hid, hdone⟩ | hjoined
      · rcases hw.over_kept hnum.nodup ht (by simp [Task.isOver, hdone]) with hkept | rfl
        · exact .inl ⟨t, hkept, hid, hdone⟩
        · exact .inr (List.mem_append_right _ (List.mem_singleton.mpr (by rw [hid])))
      · exact .inr (List.mem_append_left _ hjoined)
    · exact .inl (hw.returned hi)
  · rcases hw.finished_origin ht hdone with hold | hnew
    · obtain ⟨b, hb, hreturned⟩ := h.finished t hold hdone
      exact ⟨b, List.mem_append_left _ hb, hreturned⟩
    · exact ⟨a, List.mem_append_right _ (List.mem_singleton.mpr rfl), hnew⟩
  · exact hw.joined_gone hnum ((hlast hi).symm.imp_right (h.joined i))

theorem run_returns {acts : List WorkerAct} (h : run step (start owner config) acts = some e) :
    Returns acts e.worker := by
  refine run_invariant (P := fun acts e => Returns acts e.worker)
    ⟨fun a ha => (by cases ha), fun t ht => (by cases ht), fun i hi => (by cases hi)⟩ ?_ h
  intro acts u a u' hu hP ha
  obtain ⟨-, -, hw⟩ := step_spec ha
  exact hP.step (reachable_of_run hu).tidy.numbered hw

theorem Returns.open_iff {acts : List WorkerAct} {w : Worker} (h : Returns acts w) :
    (∀ t ∈ w.tasks, t.stage ≠ .finished) ↔ ∀ a ∈ acts, ∀ i ∈ a.returned, .joined i ∈ acts := by
  constructor
  · intro hopen a ha i hi
    rcases h.kept a ha i hi with ⟨t, ht, -, hdone⟩ | hjoined
    · exact absurd hdone (hopen t ht)
    · exact hjoined
  · intro hall t ht hdone
    obtain ⟨a, ha, hreturned⟩ := h.finished t ht hdone
    exact (h.joined t.id (hall a ha t.id hreturned)).2 t ht rfl

theorem Reachable.late (h : Reachable owner config e) (habort : e.worker.isAborted = true)
    {post : List WorkerAct} (hrun : run step e post = some e') :
    e'.abandoned = e.abandoned ∧ ∃ late, e'.counted = e.counted ++ late ∧
      (∀ x ∈ late, x.1 ∈ e.abandoned) ∧ (late = [] ↔ ∀ a ∈ post, a.returned = none) := by
  have key : (Reachable owner config e' ∧ e'.worker.isAborted = true) ∧
      e'.abandoned = e.abandoned ∧ ∃ late, e'.counted = e.counted ++ late ∧
      (∀ x ∈ late, x.1 ∈ e.abandoned) ∧ (late = [] ↔ ∀ a ∈ post, a.returned = none) := by
    refine run_invariant (P := fun post u => (Reachable owner config u ∧
      u.worker.isAborted = true) ∧ u.abandoned = e.abandoned ∧
      ∃ late, u.counted = e.counted ++ late ∧ (∀ x ∈ late, x.1 ∈ e.abandoned) ∧
      (late = [] ↔ ∀ a ∈ post, a.returned = none)) ⟨⟨h, habort⟩, rfl, [], by simp⟩ ?_ hrun
    rintro post u a u' - ⟨⟨hu, haborted⟩, hsame, late, hcounted, hlate, hnil⟩ ha
    have hu' := hu.tail ha
    obtain ⟨-, hlive, hw⟩ := step_spec ha
    obtain ⟨n, hphase⟩ := Worker.aborting_of_live hlive haborted
    have hnone : u.worker.abandons a = [] := by
      rcases hw.abandons with hab | ⟨hother, -⟩
      · exact hab
      · cases hphase.symm.trans hother
    refine ⟨⟨hu', hw.isAborted hlive haborted⟩, by simp [hnone, hsame],
      late ++ u.worker.counts a, by simp [hcounted], fun x hx => ?_, ?_⟩
    · rcases List.mem_append.mp hx with hold | hnew
      · exact hlate x hold
      · obtain ⟨t, ht, hid⟩ := hw.counts_mem hnew
        exact hsame ▸ hid ▸ (hu.accounted.closing.aborting n hphase).2 t ht
    · rw [List.append_eq_nil_iff, hnil, hw.counts_of_aborted haborted]
      simp [or_imp, forall_and]
  exact key.2

theorem run_timedOut {acts : List WorkerAct} (h : run step (start owner config) acts = some e)
    (habort : e.worker.isAborted = true) (hcrash : e.worker.phase ≠ .crashed) :
    .timedOut ∈ acts := by
  refine run_invariant (P := fun acts e => e.worker.isAborted = true → e.worker.phase ≠ .crashed →
    .timedOut ∈ acts) (fun hstart => (by cases hstart)) ?_ h habort hcrash
  intro acts u a u' _ hP ha habort hcrash
  obtain ⟨-, hlive, hw⟩ := step_spec ha
  rcases hw.aborts hlive habort hcrash with rfl | ⟨hbefore, hnot⟩
  · exact List.mem_append_right _ (List.mem_singleton.mpr rfl)
  · exact List.mem_append_left _ (hP hbefore hnot)

theorem Reachable.counted_abandoned (h : Reachable owner config e) {r : RunReport}
    (hphase : e.worker.phase = .stopped r) :
    r.processed + r.failed + r.lostClaims + r.abandoned =
      e.received.length + (e.abandoned.filter fun i => i ∈ e.countedIds).length := by
  have hacc := h.accounted
  obtain ⟨htasks, hr⟩ := hacc.closing.stopped r hphase
  obtain ⟨-, hlen⟩ := h.tidy.stopped hphase
  have hcover : e.countedIds.toFinset ∪ e.abandoned.toFinset = Finset.range e.received.length := by
    ext i
    have hcovered := hacc.ledger.covered i
    simp only [htasks, List.map_nil, List.not_mem_nil, false_or] at hcovered
    rw [Finset.mem_union, List.mem_toFinset, List.mem_toFinset, Finset.mem_range, hlen, hcovered]
  have hboth : (e.abandoned.filter fun i => i ∈ e.countedIds).toFinset =
      e.countedIds.toFinset ∩ e.abandoned.toFinset := by
    ext i
    simp [and_comm]
  have hcard := Finset.card_union_add_card_inter e.countedIds.toFinset e.abandoned.toFinset
  rw [hcover, ← hboth, Finset.card_range, List.toFinset_card_of_nodup hacc.ledger.nodup,
    List.toFinset_card_of_nodup hacc.closing.nodup,
    List.toFinset_card_of_nodup (hacc.closing.nodup.filter _)] at hcard
  have hcounted : e.countedIds.length =
      e.worker.processed + e.worker.failed + e.worker.lostClaims := by
    rw [countedIds, List.length_map, hacc.length_counted]
  rw [hcard, hcounted, hr]
  rfl

/-- Whoever returned before the timeout was joined before it, and nobody returns after it. -/
def JoinedInTime (acts : List WorkerAct) : Prop :=
  ∃ pre post, acts = pre ++ .timedOut :: post ∧
    (∀ a ∈ pre, ∀ i ∈ a.returned, .joined i ∈ pre) ∧ ∀ a ∈ post, a.returned = none

/-- No claim is both, exactly if no task in the `JoinSet` had finished when its length was read, and
none finished after that. -/
theorem disjoint_iff {e₀ e₁ : Execution} {pre post : List WorkerAct}
    (hpre : run step (start owner config) pre = some e₀) (htimeout : e₀.step .timedOut = some e₁)
    (hpost : run step e₁ post = some e) :
    (∀ i ∈ e.abandoned, i ∉ e.countedIds) ↔
      (∀ a ∈ pre, ∀ i ∈ a.returned, .joined i ∈ pre) ∧ ∀ a ∈ post, a.returned = none := by
  have h₀ := reachable_of_run hpre
  have h₁ : Reachable owner config e₁ := h₀.tail htimeout
  have hfinished := h₀.accounted.ledger.finished
  obtain ⟨-, -, hw⟩ := step_spec htimeout
  cases hw with
  | timedOut hphase htasks =>
    have hnone := h₀.accounted.closing.kept (by simp [Worker.isAborted, hphase])
    obtain ⟨habandoned, late, hcounted, hlate, hnil⟩ := h₁.late rfl hpost
    have hids : e.abandoned = e₀.worker.tasks.map Task.id := by
      rw [habandoned, hnone]
      rfl
    have hall : e.countedIds = e₀.countedIds ++ late.map Prod.fst := by
      simp [countedIds, hcounted, Worker.counts]
    rw [← (run_returns hpre).open_iff, ← hnil, hall, hids]
    constructor
    · intro hdisjoint
      refine ⟨fun t ht hdone => ?_, List.eq_nil_iff_forall_not_mem.mpr fun x hx => ?_⟩
      · refine hdisjoint t.id (List.mem_map_of_mem ht) ?_
        exact List.mem_append_left _ ((hfinished t ht).mpr hdone)
      · have hmem : x.1 ∈ e₀.worker.tasks.map Task.id := hids ▸ habandoned ▸ hlate x hx
        exact hdisjoint x.1 hmem (List.mem_append_right _ (List.mem_map_of_mem hx))
    · rintro ⟨hopen, rfl⟩ i hi hid
      rw [List.map_nil, List.append_nil] at hid
      obtain ⟨t, ht, rfl⟩ := List.mem_map.mp hi
      exact hopen t ht ((hfinished t ht).mp hid)

/-- **A timed-out run accounts for every claim exactly once** if and only if every task that
returned before the timeout was joined before it, and none returned after it. -/
theorem timed_out_accounts_iff {acts : List WorkerAct}
    (h : run step (start owner config) acts = some e) {r : RunReport}
    (hphase : e.worker.phase = .stopped r) (htimedOut : r.timedOut = true) :
    (e.received.length = r.processed + r.failed + r.lostClaims + r.abandoned ∧
      ∀ i ∈ e.abandoned, i ∉ e.countedIds) ↔ JoinedInTime acts := by
  have hsum : (∀ i ∈ e.abandoned, i ∉ e.countedIds) →
      e.received.length = r.processed + r.failed + r.lostClaims + r.abandoned := by
    intro hdisjoint
    have hnone : e.abandoned.filter (fun i => i ∈ e.countedIds) = [] := by
      refine List.filter_eq_nil_iff.mpr fun i hi => ?_
      simpa using hdisjoint i hi
    rw [(reachable_of_run h).counted_abandoned hphase, hnone, List.length_nil, Nat.add_zero]
  -- every place of the timeout in the schedule splits the run there
  have hsplit : ∀ {pre post}, acts = pre ++ .timedOut :: post →
      ((∀ i ∈ e.abandoned, i ∉ e.countedIds) ↔
        (∀ a ∈ pre, ∀ i ∈ a.returned, .joined i ∈ pre) ∧ ∀ a ∈ post, a.returned = none) := by
    rintro pre post rfl
    obtain ⟨e₀, hpre, hrest⟩ := run_append_eq_some.mp h
    obtain ⟨e₁, htimeout, hpost⟩ := run_cons_eq_some.mp hrest
    exact disjoint_iff hpre htimeout hpost
  constructor
  · rintro ⟨-, hdisjoint⟩
    obtain ⟨pre, post, hacts⟩ := List.append_of_mem (run_timedOut h
      (by simp [Worker.isAborted, hphase, htimedOut]) (by simp [hphase]))
    exact ⟨pre, post, hacts, (hsplit hacts).mp hdisjoint⟩
  · rintro ⟨pre, post, hacts, hjoined⟩
    have hdisjoint := (hsplit hacts).mpr hjoined
    exact ⟨hsum hdisjoint, hdisjoint⟩

/-- A worker with one slot and one claim, up to the shutdown. -/
def closingRun : List WorkerAct :=
  [.claimSent 0, .claimReturned (.ok [sampleClaim 7]), .spawned, .spawnDone, .shutdown,
    .processReturned 0 true, .completeSent 0 1]

/-- The task is aborted while it waits for its completion. -/
theorem timed_out_accounts_cancelled :
    ∃ e, run step (start ⟨1⟩ ⟨1, 10⟩)
        (closingRun ++ [.timedOut, .cancelled 0, .joined 0, .allJoined]) = some e ∧
      e.worker.phase = .stopped ⟨0, 0, 0, true, 1⟩ ∧ e.received.length = 0 + 0 + 0 + 1 ∧
      ∀ i ∈ e.abandoned, i ∉ e.countedIds := by
  have hrun : (run step (start ⟨1⟩ ⟨1, 10⟩)
      (closingRun ++ [.timedOut, .cancelled 0, .joined 0, .allJoined])).map (·.worker.phase) =
        some (.stopped ⟨0, 0, 0, true, 1⟩) := by decide +kernel
  obtain ⟨e, he, hphase⟩ := Option.map_eq_some_iff.mp hrun
  have hjoined : JoinedInTime
      (closingRun ++ [.timedOut, .cancelled 0, .joined 0, .allJoined]) :=
    ⟨closingRun, _, rfl, by simp [closingRun, WorkerAct.returned], by simp [WorkerAct.returned]⟩
  exact ⟨e, he, hphase, (timed_out_accounts_iff he hphase rfl).mpr hjoined⟩

/-- The task is told `true` just before the timeout, and is not joined any more: its claim is
reported as processed and as abandoned. -/
theorem finished_task_abandoned :
    (run step (start ⟨1⟩ ⟨1, 10⟩)
      (closingRun ++ [.completeReturned 0 (.ok true), .timedOut, .joined 0, .allJoined])).map
        (fun e => (e.worker.phase, e.received.length, e.abandoned, e.countedIds)) =
      some (.stopped ⟨1, 0, 0, true, 1⟩, 1, [0], [0]) := by
  decide +kernel

end Execution

end PulseStream
