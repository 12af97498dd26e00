import PulseStream.Core.Config
import PulseStream.Lib.Machine
import PulseStream.Worker.Steps

/-!
# Executions of a worker

An execution is a worker with four records that nothing reads: the claims it has received, the tasks
it has spawned for them, the outcomes it has counted and the tasks it has abandoned. The store may
return any claims, but no more than were asked for.

`Execution.Tidy` is the invariant of the loop: the tasks stay within the concurrency, every claim
gets one task, and `running` is the table of the tasks in the `JoinSet`.
-/

namespace PulseStream

open Machine

/-- The limits that `run` is given. -/
def Config.WorkerRuntimeConfig.limits (config : Config.WorkerRuntimeConfig) :
    PulseStream.WorkerRuntimeConfig :=
  ⟨config.concurrency, config.lease.millis * 1000⟩

/-- What a claim is counted as. -/
inductive Outcome where
  | processed
  | failed
  | lost
  deriving DecidableEq

/-- The claims that an action brings. -/
def WorkerAct.received : WorkerAct → List (ClaimedEvent (Json Token))
  | .claimReturned (.ok claims) => claims
  | _ => []

/-- The entry of a task in `running`. -/
def Task.entry (t : Task) : ℕ × EventId := (t.id, t.claim.event.id)

namespace Worker

/-- The claims that have no task yet. -/
def pending (w : Worker) : List (ClaimedEvent (Json Token)) :=
  match w.phase with
  | .spawning claims => claims
  | _ => []

/-- The `JoinSet` has been shut down, and `running` is no longer kept. -/
def isAborted (w : Worker) : Bool :=
  match w.phase with
  | .aborting _ => true
  | .stopped report => report.timedOut
  | .crashed => true
  | _ => false

/-- The task that an action spawns. -/
def spawns (w : Worker) : WorkerAct → List Task
  | .spawned => w.pending.head?.toList.map fun claim => ⟨w.nextTask, claim, .processing⟩
  | _ => []

/-- The outcome that an action counts, with its task. A panic is counted by `record_join`. -/
def counts (w : Worker) : WorkerAct → List (ℕ × Outcome)
  | .processReturned i false => [(i, .failed)]
  | .completeReturned i (.ok true) => [(i, .processed)]
  | .completeReturned i (.ok false) => [(i, .lost)]
  | .completeReturned i (.error _) => [(i, .failed)]
  | .joined i =>
    if w.isAborted = false ∧ (w.task i).any fun t => t.stage = .panicked then [(i, .failed)] else []
  | _ => []

/-- The tasks in the `JoinSet` when `run` reads its length for `abandoned`. -/
def abandons (w : Worker) : WorkerAct → List ℕ
  | .timedOut => w.tasks.map Task.id
  | _ => []

end Worker

/-- A worker and its records. -/
structure Execution where
  worker : Worker
  received : List (ClaimedEvent (Json Token))
  spawned : List Task
  counted : List (ℕ × Outcome)
  abandoned : List ℕ

namespace Execution

def start (owner : WorkerId) (config : WorkerRuntimeConfig) : Execution :=
  ⟨.start owner config, [], [], [], []⟩

/-- One step of the worker. A claim returns at most as many rows as were asked for, which is the
number of free slots: no task is joined while the loop waits for the claim. -/
def step (e : Execution) (a : WorkerAct) : Option Execution :=
  if a.received.length ≤ e.worker.free then do
    let w ← e.worker.step a
    some ⟨w, e.received ++ a.received, e.spawned ++ e.worker.spawns a,
      e.counted ++ e.worker.counts a, e.abandoned ++ e.worker.abandons a⟩
  else none

theorem step_eq {e : Execution} {a : WorkerAct} {w : Worker}
    (hroom : a.received.length ≤ e.worker.free) (hw : e.worker.step a = some w) :
    e.step a = some ⟨w, e.received ++ a.received, e.spawned ++ e.worker.spawns a,
      e.counted ++ e.worker.counts a, e.abandoned ++ e.worker.abandons a⟩ := by
  rw [step, if_pos hroom, hw]
  rfl

/-- Everything a step can do. -/
inductive Steps (e : Execution) (a : WorkerAct) : Execution → Prop
  | step {w : Worker} (hroom : a.received.length ≤ e.worker.free) (hlive : e.worker.isLive = true)
      (h : e.worker.Steps a w) :
      Steps e a ⟨w, e.received ++ a.received, e.spawned ++ e.worker.spawns a,
        e.counted ++ e.worker.counts a, e.abandoned ++ e.worker.abandons a⟩

theorem step_spec {e e' : Execution} {a : WorkerAct} (h : e.step a = some e') : Steps e a e' := by
  unfold step at h
  split_ifs at h with hroom
  obtain ⟨w, hw, h⟩ := Option.bind_eq_some_iff.mp h
  obtain rfl := Option.some.inj h
  exact .step hroom (Worker.step_live hw) (Worker.step_spec hw)

theorem step_eq_some {e e' : Execution} {a : WorkerAct} (h : e.step a = some e') :
    a.received.length ≤ e.worker.free ∧ e.worker.isLive = true ∧ e.worker.Steps a e'.worker := by
  obtain ⟨hroom, hlive, hw⟩ := step_spec h
  exact ⟨hroom, hlive, hw⟩

/-- `e` is reached by a worker that was started with the given limits. -/
def Reachable (owner : WorkerId) (config : WorkerRuntimeConfig) (e : Execution) : Prop :=
  Reaches step (start owner config) e

theorem reachable_of_run {owner : WorkerId} {config : WorkerRuntimeConfig} {e : Execution}
    {acts : List WorkerAct} (h : run step (start owner config) acts = some e) :
    Reachable owner config e := ⟨acts, h⟩

theorem Reachable.invariant {owner : WorkerId} {config : WorkerRuntimeConfig} {e : Execution}
    {P : Execution → Prop} (h : Reachable owner config e) (hstart : P (start owner config))
    (hstep : ∀ t a t', P t → Steps t a t' → P t') : P e :=
  Reaches.invariant hstart (fun t a t' _ hP ha => hstep t a t' hP (step_spec ha)) h

end Execution

/-! ## What a step changes -/

namespace Worker

variable {w w' : Worker} {a : WorkerAct} {t : Task} {stage : TaskStage}

theorem countCompletion_eq (w : Worker) (t : Task) (result : Except StoreError Bool) :
    ∃ p f l, w.countCompletion t result =
      { w.setStage t .finished with processed := p, failed := f, lostClaims := l } := by
  unfold countCompletion
  split <;> exact ⟨_, _, _, rfl⟩

/-- A join by the loop goes through `record_join`, one by the shutdown does not. -/
theorem join_eq_some (h : w.join t = some w') :
    (∃ n, w.phase = .aborting n ∧ w' = w.removeTask t) ∨
      ((w.phase = .joining ∨ w.phase = .selecting ∨ w.phase = .draining) ∧
        ∃ phase, (phase = .joining ∨ phase = .draining) ∧
          w' = { w.recordJoin t with phase := phase }) := by
  unfold join at h
  split at h
  · rename_i hphase
    obtain rfl := Option.some.inj h
    exact .inr ⟨.inl hphase, .joining, .inl rfl, by simp [recordJoin, removeTask, hphase]⟩
  · rename_i hphase
    obtain rfl := Option.some.inj h
    exact .inr ⟨.inr (.inl hphase), .joining, .inl rfl, rfl⟩
  · rename_i hphase
    obtain rfl := Option.some.inj h
    exact .inr ⟨.inr (.inr hphase), .draining, .inr rfl, by simp [recordJoin, removeTask, hphase]⟩
  · rename_i n hphase
    obtain rfl := Option.some.inj h
    exact .inl ⟨n, hphase, rfl⟩
  · cases h

theorem setStage_ids (w : Worker) (t : Task) (stage : TaskStage) :
    (w.setStage t stage).tasks.map Task.id = w.tasks.map Task.id :=
  Table.map_put fun n hn r _ hid => by rw [List.mem_singleton.mp hn] at hid ⊢; exact hid

theorem setStage_length (w : Worker) (t : Task) (stage : TaskStage) :
    (w.setStage t stage).tasks.length = w.tasks.length := by
  have h := congrArg List.length (w.setStage_ids t stage)
  simpa using h

/-- What a step does to the tasks. -/
inductive Effect (w : Worker) : Worker → Prop
  | loop {phase : Phase} {available : Bool} :
      Effect w { w with phase := phase, databaseAvailable := available }
  | moved {i : ℕ} {t : Task} {stage : TaskStage} {p f l : ℕ} (ht : w.task i = some t) :
      Effect w { w.setStage t stage with processed := p, failed := f, lostClaims := l }
  | joined {i : ℕ} {t : Task} {phase : Phase} (ht : w.task i = some t) :
      Effect w { w.recordJoin t with phase := phase }
  | removed {i n : ℕ} {t : Task} (ht : w.task i = some t) (hphase : w.phase = .aborting n) :
      Effect w (w.removeTask t)
  | spawned {claim : ClaimedEvent (Json Token)} {claims : List (ClaimedEvent (Json Token))}
      (hphase : w.phase = .spawning (claim :: claims)) :
      Effect w { w.spawn claim with phase := .spawning claims }

theorem Steps.effect (h : Steps w a w') : Effect w w' := by
  cases h with
  | joined ht hover hjoin =>
    rcases join_eq_some hjoin with ⟨n, hphase, rfl⟩ | ⟨-, phase, -, rfl⟩
    · exact .removed ht hphase
    · exact .joined ht
  | processOk ht hstage => exact .moved ht
  | processErr ht hstage => exact .moved ht
  | panicked ht hstage => exact .moved ht
  | sent ht hstage => exact .moved ht
  | cancelled ht hphase hover => exact .moved ht
  | completed ht hstage result =>
    obtain ⟨p, f, l, heq⟩ := countCompletion_eq w _ result
    rw [heq]
    exact .moved ht
  | spawned hphase => exact .spawned hphase
  | _ => exact .loop

theorem Effect.config (h : Effect w w') : w'.config = w.config := by
  cases h <;> rfl

theorem pending_eq_nil (h : ∀ claims, w.phase ≠ .spawning claims) : w.pending = [] := by
  unfold pending
  split
  · rename_i claims hphase
    exact absurd hphase (h claims)
  · rfl

theorem pending_of_phase {claims : List (ClaimedEvent (Json Token))}
    (h : w.phase = .spawning claims) : w.pending = claims := by
  simp [pending, h]

theorem Steps.bound (h : Steps w a w') (hroom : a.received.length ≤ w.free)
    (hb : w.tasks.length + w.pending.length ≤ w.config.concurrency) :
    w'.tasks.length + w'.pending.length ≤ w'.config.concurrency := by
  rw [h.effect.config]
  have hset : ∀ {t : Task} {stage : TaskStage},
      (w.setStage t stage).tasks.length + w.pending.length ≤ w.config.concurrency := by
    intro t stage
    rwa [setStage_length]
  cases h with
  | joined ht hover hjoin =>
    obtain ⟨htasks, -, -, -, hphase⟩ := join_some hjoin
    have hle : w'.tasks.length ≤ w.tasks.length := htasks ▸ List.length_filter_le _ _
    rw [pending_eq_nil hphase, List.length_nil]
    omega
  | processOk | processErr | panicked | sent | cancelled => exact hset
  | completed ht hstage result =>
    obtain ⟨p, f, l, heq⟩ := countCompletion_eq w _ result
    rw [heq]
    exact hset
  | claimOk hphase =>
    simp only [WorkerAct.received, free] at hroom
    show w.tasks.length + _ ≤ _
    rw [pending_of_phase rfl]
    omega
  | spawned hphase =>
    rw [pending_of_phase hphase, List.length_cons] at hb
    rw [pending_of_phase rfl]
    show (w.tasks ++ [_]).length + _ ≤ _
    rw [List.length_append, List.length_singleton]
    omega
  | _ => exact (Nat.add_le_add_left (Nat.zero_le _) _).trans hb

/-- The ids of the tasks are distinct, and were given out before. -/
structure Numbered (w : Worker) : Prop where
  nodup : (w.tasks.map Task.id).Nodup
  fresh : ∀ t ∈ w.tasks, t.id < w.nextTask

theorem mem_removeTask {t t' : Task} (h : t' ∈ (w.removeTask t).tasks) :
    t' ∈ w.tasks ∧ t'.id ≠ t.id := by
  obtain ⟨hmem, hne⟩ := List.mem_filter.mp h
  exact ⟨hmem, by simpa using hne⟩

theorem removeTask_nodup (t : Task) (h : (w.tasks.map Task.id).Nodup) :
    ((w.removeTask t).tasks.map Task.id).Nodup :=
  h.sublist (List.filter_sublist.map _)

theorem Numbered.step (h : w.Numbered) (heffect : Effect w w') : w'.Numbered := by
  obtain ⟨hnodup, hfresh⟩ := h
  cases heffect with
  | loop => exact ⟨hnodup, hfresh⟩
  | @moved i t stage p f l ht =>
    refine ⟨?_, fun t' ht' => ?_⟩
    · rw [← w.setStage_ids t stage] at hnodup
      exact hnodup
    · rcases mem_setStage ht' with hmem | rfl
      · exact hfresh t' hmem
      · exact hfresh t (task_mem ht)
  | @joined i t phase ht =>
    exact ⟨removeTask_nodup t hnodup, fun t' ht' => hfresh t' (mem_removeTask ht').1⟩
  | @removed i n t ht hphase =>
    exact ⟨removeTask_nodup t hnodup, fun t' ht' => hfresh t' (mem_removeTask ht').1⟩
  | @spawned claim claims hphase =>
    refine ⟨?_, fun t' ht' => ?_⟩
    · show ((w.tasks ++ [_]).map Task.id).Nodup
      rw [List.map_append, List.map_singleton, List.nodup_append]
      refine ⟨hnodup, List.nodup_singleton _, ?_⟩
      rintro i hi j hj rfl
      obtain ⟨t, ht, rfl⟩ := List.mem_map.mp hi
      exact absurd (List.mem_singleton.mp hj) (hfresh t ht).ne
    · rcases List.mem_append.mp ht' with hmem | hnew
      · exact (hfresh t' hmem).trans (Nat.lt_succ_self _)
      · obtain rfl := List.mem_singleton.mp hnew
        exact Nat.lt_succ_self _

theorem aborting_of_live (hlive : w.isLive = true) (haborted : w.isAborted = true) :
    ∃ n, w.phase = .aborting n := by
  unfold isLive at hlive
  unfold isAborted at haborted
  split at haborted <;> simp_all

theorem Steps.isAborted (h : Steps w a w') (hlive : w.isLive = true)
    (haborted : w.isAborted = true) : w'.isAborted = true := by
  obtain ⟨n, hphase⟩ := aborting_of_live hlive haborted
  cases h with
  | joined ht hover hjoin =>
    rcases join_eq_some hjoin with ⟨n, hphase, rfl⟩ | ⟨hother, -⟩
    · exact haborted
    · rw [hphase] at hother
      simp at hother
  | completed ht hstage result =>
    obtain ⟨p, f, l, heq⟩ := countCompletion_eq w _ result
    rw [heq]
    exact haborted
  | processOk | processErr | panicked | sent | cancelled => exact haborted
  | allJoined | crashed => rfl
  | skipped h | claimSent h | claimOk h | claimErr h | spawned h | spawnDone h | shutdown h
  | poll h | drained h | timedOut h =>
    rw [hphase] at h
    cases h

theorem Effect.running (h : Effect w w') (hids : (w.tasks.map Task.id).Nodup)
    (hrunning : w.running = w.tasks.map Task.entry) (hkept : w'.isAborted = false) :
    w'.running = w'.tasks.map Task.entry := by
  cases h with
  | loop => exact hrunning
  | @moved i t stage p f l ht =>
    refine hrunning.trans (Table.map_put fun n hn r hr hid => ?_).symm
    obtain rfl := List.mem_singleton.mp hn
    rw [← List.inj_on_of_nodup_map hids (task_mem ht) hr hid]
    rfl
  | @joined i t phase ht =>
    show w.running.filter _ = (w.tasks.filter _).map Task.entry
    rw [hrunning, List.filter_map]
    rfl
  | @removed i n t ht hphase =>
    simp [Worker.isAborted, removeTask, hphase] at hkept
  | @spawned claim claims hphase =>
    show w.running ++ _ = (w.tasks ++ [_]).map Task.entry
    rw [hrunning, List.map_append]
    rfl

/-- The claims that wait for a task: new ones come from the store, and the first is spawned. -/
theorem Steps.pending (h : Steps w a w') (hcrash : w'.phase ≠ .crashed) :
    (w.spawns a).map Task.claim ++ w'.pending = w.pending ++ a.received := by
  cases h with
  | joined ht hover hjoin =>
    have hnil : w.pending = [] := pending_eq_nil fun claims hphase => by
      simp [join, hphase] at hjoin
    rw [pending_eq_nil (join_some hjoin).2.2.2.2, hnil]
    rfl
  | processOk | processErr | panicked | sent | cancelled =>
    exact (List.append_nil w.pending).symm
  | completed ht hstage result =>
    obtain ⟨p, f, l, heq⟩ := countCompletion_eq w _ result
    rw [heq]
    cases result <;> exact (List.append_nil w.pending).symm
  | claimOk hphase =>
    have hnil : w.pending = [] := by simp [Worker.pending, hphase]
    rw [hnil]
    rfl
  | spawned hphase =>
    simp [Worker.spawns, Worker.pending, hphase, WorkerAct.received]
  | skipped h | claimSent h | claimErr h | spawnDone h | shutdown h | poll h | drained h
  | timedOut h | allJoined h =>
    have hnil : w.pending = [] := by simp [Worker.pending, h]
    rw [hnil]
    rfl
  | crashed => exact absurd rfl hcrash

theorem Steps.spawns (h : Steps w a w') :
    (w.spawns a = [] ∧ w'.nextTask = w.nextTask) ∨
      ∃ claim, w.spawns a = [⟨w.nextTask, claim, .processing⟩] ∧ w'.nextTask = w.nextTask + 1 ∧
        w'.tasks = w.tasks ++ [⟨w.nextTask, claim, .processing⟩] := by
  cases h with
  | joined ht hover hjoin =>
    rcases join_eq_some hjoin with ⟨n, -, rfl⟩ | ⟨-, phase, -, rfl⟩ <;> exact .inl ⟨rfl, rfl⟩
  | completed ht hstage result =>
    obtain ⟨p, f, l, heq⟩ := countCompletion_eq w _ result
    rw [heq]
    exact .inl ⟨rfl, rfl⟩
  | @spawned claim claims hphase =>
    refine .inr ⟨claim, ?_, rfl, rfl⟩
    simp [Worker.spawns, pending_of_phase hphase]
  | _ => exact .inl ⟨rfl, rfl⟩

end Worker

/-! ## The invariant of the loop -/

namespace Execution

variable {owner : WorkerId} {config : WorkerRuntimeConfig} {e e' : Execution} {a : WorkerAct}

/-- The invariant of the loop. -/
structure Tidy (config : WorkerRuntimeConfig) (e : Execution) : Prop where
  config : e.worker.config = config
  bound : e.worker.tasks.length + e.worker.pending.length ≤ e.worker.config.concurrency
  numbered : e.worker.Numbered
  running : e.worker.isAborted = false → e.worker.running = e.worker.tasks.map Task.entry
  ids : e.spawned.map Task.id = List.range e.worker.nextTask
  origin : ∀ t ∈ e.worker.tasks, ⟨t.id, t.claim, .processing⟩ ∈ e.spawned
  claims : e.worker.phase ≠ .crashed → e.spawned.map Task.claim ++ e.worker.pending = e.received

theorem Tidy.origin_step (h : e.Tidy config) {w : Worker} (hw : e.worker.Steps a w) {t : Task}
    (ht : t ∈ w.tasks) : ⟨t.id, t.claim, .processing⟩ ∈ e.spawned ++ e.worker.spawns a := by
  have hfresh := (h.numbered.step hw.effect).fresh t ht
  rcases hw.spawns with ⟨-, hnext⟩ | ⟨claim, hone, -, htasks⟩
  · refine List.mem_append_left _ ?_
    cases hw.tasks ht with
    | kept hold => exact h.origin t hold
    | @ended _ t stage hold hover => exact h.origin t hold
    | @processed t hold => exact h.origin t (Worker.task_mem hold)
    | @sent c t hold hstage => exact h.origin t (Worker.task_mem hold)
    | spawned hphase => exact absurd (hnext ▸ hfresh) (lt_irrefl _)
  · rw [htasks] at ht
    rcases List.mem_append.mp ht with hold | hnew
    · exact List.mem_append_left _ (h.origin t hold)
    · obtain rfl := List.mem_singleton.mp hnew
      rw [hone]
      exact List.mem_append_right _ (List.mem_singleton.mpr rfl)

theorem Tidy.step (h : e.Tidy config) (hstep : Steps e a e') : e'.Tidy config := by
  obtain ⟨hroom, hlive, hw⟩ := hstep
  refine ⟨hw.effect.config.trans h.config, hw.bound hroom h.bound, h.numbered.step hw.effect, ?_,
    ?_, fun t ht => h.origin_step hw ht, ?_⟩
  · intro hkept
    have hbefore : e.worker.isAborted = false := by
      by_contra habort
      have hafter := hw.isAborted hlive (by simpa using habort)
      rw [hafter] at hkept
      cases hkept
    exact hw.effect.running h.numbered.nodup (h.running hbefore) hkept
  · show (e.spawned ++ _).map Task.id = _
    rw [List.map_append, h.ids]
    rcases hw.spawns with ⟨hnone, hnext⟩ | ⟨claim, hone, hnext, -⟩
    · rw [hnone, hnext, List.map_nil, List.append_nil]
    · rw [hone, hnext, List.range_succ]
      rfl
  · intro hcrash
    have hbefore : e.worker.phase ≠ .crashed := fun hphase => by
      simp [Worker.isLive, hphase] at hlive
    show (e.spawned ++ _).map Task.claim ++ _ = e.received ++ _
    rw [← h.claims hbefore, List.map_append, List.append_assoc, hw.pending hcrash,
      List.append_assoc]

theorem tidy_start : (start owner config).Tidy config :=
  ⟨rfl, Nat.zero_le _, ⟨List.nodup_nil, fun t ht => (by cases ht)⟩, fun _ => rfl, rfl,
    fun t ht => (by cases ht), fun _ => rfl⟩

theorem Reachable.tidy (h : Reachable owner config e) : e.Tidy config :=
  h.invariant tidy_start fun _ _ _ ht hstep => ht.step hstep

end Execution

end PulseStream
