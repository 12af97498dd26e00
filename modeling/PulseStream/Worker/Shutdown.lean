import PulseStream.Lib.Progress
import PulseStream.Worker.Accounting

/-!
# The end of a worker

`Signalled` is an execution together with the arrival of the shutdown signal. The `select!` of the
loop is biased, so its branch for the signal is taken as soon as the loop comes to it. Until then
the worker may send one more claim, or receive the one under way, and spawn the tasks for it.

From the signal on every step makes `Worker.left` smaller. Once the worker drains it takes no more
work, and its timer, the aborts and the joins alone bring it to its report, exactly if every task
that is still at work comes back to a point where it can be aborted (`shutdown_ends`).
-/

namespace PulseStream

open Machine

/-- How many steps a task has left until it is joined. -/
def TaskStage.left : TaskStage → ℕ
  | .processing => 4
  | .processed => 3
  | .completing _ => 2
  | .finished => 1
  | .panicked => 1
  | .cancelled => 1

theorem TaskStage.left_pos (stage : TaskStage) : 0 < stage.left := by
  cases stage <;> simp [left]

theorem TaskStage.left_le (stage : TaskStage) : stage.left ≤ 4 := by
  cases stage <;> simp [left]

namespace WorkerAct

/-- The steps of the loop that lead to its `select!`. -/
def isLoop : WorkerAct → Bool
  | .claimSkipped => true
  | .claimSent _ => true
  | .spawned => true
  | .spawnDone => true
  | .shutdown => true
  | _ => false

/-- What an action of a closing worker does not need: an answer from outside. A task that is `stuck`
never returns from its poll, so an abort has no effect on it. -/
def isOwn (stuck : List ℕ) : WorkerAct → Bool
  | .joined _ => true
  | .drained => true
  | .timedOut => true
  | .allJoined => true
  | .cancelled i => i ∉ stuck
  | _ => false

/-- The action asks the store for work, or gives a task to it. -/
def takesWork : WorkerAct → Bool
  | .claimSent _ => true
  | .claimReturned _ => true
  | .spawned => true
  | _ => false

/-- The `select!` is biased: the signal is looked at first. -/
def selected (arrived : Bool) (w : Worker) : WorkerAct → Bool
  | .shutdown => arrived
  | .poll => !arrived
  | .joined _ => !arrived || w.phase ≠ .selecting
  | _ => true

end WorkerAct

/-! ## The steps that are left -/

namespace Worker

variable {w w' : Worker} {a : WorkerAct}

/-- The worker has taken the branch of the shutdown, or is over. -/
def isClosing (w : Worker) : Bool :=
  match w.phase with
  | .draining => true
  | .aborting _ => true
  | .stopped _ => true
  | .crashed => true
  | _ => false

/-- How many steps the loop has left after the signal, those of tasks still to be spawned
included. -/
def phaseLeft (w : Worker) : ℕ :=
  match w.phase with
  | .joining => 5 * w.config.concurrency + 6
  | .claiming _ => 5 * w.config.concurrency + 5
  | .spawning claims => 5 * claims.length + 4
  | .selecting => 3
  | .draining => 2
  | .aborting _ => 1
  | _ => 0

def tasksLeft (w : Worker) : ℕ := (w.tasks.map fun t => t.stage.left).sum

/-- A bound on the steps of a worker after the signal. -/
def left (w : Worker) : ℕ := w.tasksLeft + w.phaseLeft

theorem tasksLeft_setStage (hids : (w.tasks.map Task.id).Nodup) {i : ℕ} {t : Task}
    (ht : w.task i = some t) {stage : TaskStage} (hlt : stage.left < t.stage.left) :
    (w.setStage t stage).tasksLeft < w.tasksLeft := by
  have hnew : (w.setStage t stage).tasks.map (fun t => t.stage.left) = w.tasks.map fun u =>
      ((Table.lookup Task.id u.id [{ t with stage := stage }]).getD u).stage.left := by
    unfold setStage Table.put
    rw [List.map_map]
    rfl
  have hone : Table.lookup Task.id t.id [{ t with stage := stage }] =
      some { t with stage := stage } := by
    simp [Table.lookup]
  rw [tasksLeft, hnew]
  refine List.sum_lt_sum _ _ (fun u hu => ?_) ⟨t, task_mem ht, ?_⟩
  · cases hu' : Table.lookup Task.id u.id [{ t with stage := stage }] with
    | none => exact le_rfl
    | some v =>
      -- the only task with that id is the one that moves
      have hkey : v.id = u.id := Table.lookup_key hu'
      obtain rfl := List.mem_singleton.mp (Table.lookup_mem hu')
      obtain rfl := List.inj_on_of_nodup_map hids (task_mem ht) hu hkey
      exact hlt.le
  · rw [hone]
    exact hlt

theorem tasksLeft_removeTask {i : ℕ} {t : Task} (ht : w.task i = some t) :
    (w.removeTask t).tasksLeft < w.tasksLeft :=
  Table.sum_map_filter_lt (task_mem ht) (by simp) t.stage.left_pos

theorem tasksLeft_le (w : Worker) : w.tasksLeft ≤ 4 * w.tasks.length := by
  have hsum := List.sum_le_card_nsmul (w.tasks.map fun t => t.stage.left) 4 (by
    intro n hn
    obtain ⟨t, -, rfl⟩ := List.mem_map.mp hn
    exact t.stage.left_le)
  simp only [List.length_map, smul_eq_mul] at hsum
  unfold tasksLeft
  omega

theorem left_le (hb : w.tasks.length + w.pending.length ≤ w.config.concurrency) :
    w.left ≤ 9 * w.config.concurrency + 6 := by
  have hle := w.tasksLeft_le
  unfold left phaseLeft
  split
  case h_3 claims hphase =>
    rw [pending_of_phase hphase] at hb
    omega
  all_goals omega

theorem left_of_draining (hphase : w.phase = .draining) : w.left ≤ 4 * w.tasks.length + 2 := by
  have hle := w.tasksLeft_le
  simp only [left, phaseLeft, hphase]
  omega

/-- A task moves on, and the loop stays where it is. -/
theorem left_lt_of_tasks {w₁ : Worker} (hsum : w₁.tasksLeft < w.tasksLeft)
    (hphase : w₁.phase = w.phase) (hconfig : w₁.config = w.config) : w₁.left < w.left := by
  unfold left phaseLeft
  rw [hphase, hconfig]
  exact Nat.add_lt_add_right hsum _

/-- The loop moves on, and no task does. -/
theorem left_lt_of_phase {w₁ : Worker} (htasks : w₁.tasks = w.tasks)
    (hlt : w₁.phaseLeft < w.phaseLeft) : w₁.left < w.left := by
  unfold left tasksLeft
  rw [htasks]
  exact Nat.add_lt_add_left hlt _

/-- After the signal a join does not move the loop: the `select!` does not come to it. -/
theorem join_selected {i : ℕ} {t : Task} (hjoin : w.join t = some w')
    (hselected : (WorkerAct.joined i).selected true w = true) :
    w'.phase = w.phase ∧ w'.tasks = (w.removeTask t).tasks ∧ w'.config = w.config := by
  simp only [WorkerAct.selected, Bool.not_true, Bool.false_or, decide_eq_true_eq] at hselected
  unfold join at hjoin
  split at hjoin
  case h_2 hphase => exact absurd hphase hselected
  case h_5 => cases hjoin
  all_goals
    obtain rfl := Option.some.inj hjoin
    exact ⟨rfl, rfl, rfl⟩

theorem Steps.left_lt (h : Steps w a w') (hlive : w.isLive = true) (hnum : w.Numbered)
    (hroom : a.received.length ≤ w.free) (hselected : a.selected true w = true) :
    w'.left < w.left := by
  have hset : ∀ {i : ℕ} {t : Task} {stage : TaskStage}, w.task i = some t →
      stage.left < t.stage.left → (w.setStage t stage).tasksLeft < w.tasksLeft :=
    fun ht hlt => tasksLeft_setStage hnum.nodup ht hlt
  cases h with
  | joined ht hover hjoin =>
    obtain ⟨hphase, htasks, hconfig⟩ := join_selected hjoin hselected
    refine left_lt_of_tasks ?_ hphase hconfig
    rw [tasksLeft, htasks]
    exact tasksLeft_removeTask ht
  | processOk ht hstage | processErr ht hstage | panicked ht hstage | sent ht hstage =>
    exact left_lt_of_tasks (hset ht (by rw [hstage]; simp [TaskStage.left])) rfl rfl
  | completed ht hstage result =>
    obtain ⟨p, f, l, heq⟩ := countCompletion_eq w _ result
    rw [heq]
    exact left_lt_of_tasks (hset ht (by rw [hstage]; simp [TaskStage.left])) rfl rfl
  | @cancelled i n t ht hphase hopen =>
    refine left_lt_of_tasks (hset ht ?_) rfl rfl
    unfold Task.isOver at hopen
    cases hstage : t.stage <;> simp_all [TaskStage.left]
  | @claimOk c claims hphase =>
    simp only [WorkerAct.received, free] at hroom
    refine left_lt_of_phase rfl ?_
    simp only [phaseLeft, hphase]
    omega
  | @spawned claim claims hphase =>
    have htasks : (w.spawn claim).tasksLeft = w.tasksLeft + 4 := by
      simp [tasksLeft, spawn, TaskStage.left]
    show (w.spawn claim).tasksLeft + (5 * claims.length + 4) < _
    simp only [left, htasks, phaseLeft, hphase, List.length_cons]
    omega
  | poll hphase hslot => cases hselected
  | crashed =>
    refine left_lt_of_phase rfl ?_
    show 0 < w.phaseLeft
    cases hphase : w.phase with
    | stopped r | crashed => simp [isLive, hphase] at hlive
    | _ => simp [phaseLeft, hphase]
  | skipped hphase | claimSent hphase | claimErr hphase | spawnDone hphase | shutdown hphase
  | drained hphase | timedOut hphase | allJoined hphase =>
    refine left_lt_of_phase rfl ?_
    simp only [phaseLeft, hphase]
    omega

/-- How many claims the loop may still send after the signal. -/
def claimsLeft (w : Worker) : ℕ := if w.phase = .joining then 1 else 0

theorem Steps.claimsLeft_le (h : Steps w a w') (hselected : a.selected true w = true) :
    (if a.sendsClaim then 1 else 0) + w'.claimsLeft ≤ w.claimsLeft := by
  have hsame : ∀ {w₁ : Worker}, w₁.phase = w.phase → w₁.claimsLeft = w.claimsLeft := by
    intro w₁ hphase
    unfold claimsLeft
    rw [hphase]
  cases h with
  | joined ht hover hjoin =>
    rw [hsame (join_selected hjoin hselected).1]
    exact (Nat.zero_add _).le
  | completed ht hstage result =>
    rw [hsame (countCompletion_spec w _ result).2.2.1]
    exact (Nat.zero_add _).le
  | processOk | processErr | panicked | sent | cancelled => exact (Nat.zero_add _).le
  | claimSent hphase hfree => simp [claimsLeft, hphase, WorkerAct.sendsClaim]
  | poll hphase hslot => cases hselected
  | _ => exact Nat.zero_le _

/-! ## A closing worker -/

theorem closing_live (hlive : w.isLive = true) (hclosing : w.isClosing = true) :
    w.phase = .draining ∨ ∃ n, w.phase = .aborting n := by
  unfold isLive at hlive
  unfold isClosing at hclosing
  split at hclosing <;> simp_all

theorem Steps.closing (h : Steps w a w') (hlive : w.isLive = true)
    (hclosing : w.isClosing = true) : a.takesWork = false ∧ w'.isClosing = true := by
  have hphase := closing_live hlive hclosing
  cases h with
  | joined ht hover hjoin =>
    rcases hphase with hphase | ⟨n, hphase⟩ <;> simp only [join, hphase, Option.some.injEq] at hjoin
    all_goals
      subst hjoin
      exact ⟨rfl, hclosing⟩
  | completed ht hstage result =>
    obtain ⟨-, -, hsame, -⟩ := countCompletion_spec w _ result
    exact ⟨rfl, by rwa [isClosing, hsame]⟩
  | processOk | processErr | panicked | sent | cancelled => exact ⟨rfl, hclosing⟩
  | drained | timedOut | allJoined | crashed => exact ⟨rfl, rfl⟩
  | skipped hother | claimSent hother | claimOk hother | claimErr hother | spawned hother
  | spawnDone hother | shutdown hother | poll hother =>
    rcases hphase with hphase | ⟨n, hphase⟩ <;> cases hphase.symm.trans hother

section Own

variable {stuck : List ℕ}

/-- A step that needs nothing from outside. -/
def stepOwn (stuck : List ℕ) (w : Worker) (a : WorkerAct) : Option Worker :=
  if a.isOwn stuck then w.step a else none

theorem stepOwn_some (h : w.stepOwn stuck a = some w') :
    a.isOwn stuck = true ∧ w.step a = some w' := by
  unfold stepOwn at h
  split_ifs at h with hown
  exact ⟨hown, h⟩

/-- Every task that is stuck is over. -/
def Unstuck (stuck : List ℕ) (w : Worker) : Prop :=
  ∀ t ∈ w.tasks, t.id ∈ stuck → t.isOver = true

theorem Unstuck.step (h : w.Unstuck stuck) (hown : a.isOwn stuck = true) (hw : Steps w a w') :
    w'.Unstuck stuck := by
  intro t ht hstuck
  cases hw with
  | joined ht' hover hjoin =>
    rw [(join_some hjoin).1] at ht
    exact h t (List.mem_of_mem_filter ht) hstuck
  | cancelled ht' hphase hopen =>
    rcases mem_setStage ht with hmem | rfl
    · exact h t hmem hstuck
    · rfl
  | drained | timedOut | allJoined => exact h t ht hstuck
  | _ => cases hown

theorem stepOwn_enabled (hids : (w.tasks.map Task.id).Nodup) (hunstuck : w.Unstuck stuck)
    (hclosing : w.isClosing = true) (hlive : w.isLive = true) :
    ∃ a w', w.stepOwn stuck a = some w' := by
  rcases closing_live hlive hclosing with hphase | ⟨n, hphase⟩
  · by_cases htasks : w.tasks = []
    · refine ⟨.drained, { w with phase := .stopped (w.report false 0) }, ?_⟩
      show w.step .drained = _
      rw [step_loop hlive rfl]
      exact if_pos ⟨hphase, htasks⟩
    · refine ⟨.timedOut, { w with phase := .aborting w.tasks.length }, ?_⟩
      show w.step .timedOut = _
      rw [step_loop hlive rfl]
      exact if_pos ⟨hphase, htasks⟩
  · cases htasks : w.tasks with
    | nil =>
      refine ⟨.allJoined, { w with phase := .stopped (w.report true n) }, ?_⟩
      show w.step .allJoined = _
      rw [step_loop hlive rfl, stepLoop, hphase]
      exact if_pos htasks
    | cons t tasks =>
      have hmem : t ∈ w.tasks := htasks ▸ List.mem_cons_self
      have ht : w.task t.id = some t := Table.lookup_of_mem hids hmem
      cases hover : t.isOver with
      | true =>
        refine ⟨.joined t.id, w.removeTask t, ?_⟩
        show w.step (.joined t.id) = _
        rw [step_task hlive rfl ht, stepTask, if_pos hover, join, hphase]
      | false =>
        have hfree : t.id ∉ stuck := fun hstuck =>
          absurd (hover.symm.trans (hunstuck t hmem hstuck)) (by decide)
        refine ⟨.cancelled t.id, w.setStage t .cancelled, ?_⟩
        rw [stepOwn, if_pos (by simpa [WorkerAct.isOwn] using hfree), step_task hlive rfl ht,
          stepTask, hphase]
        exact if_neg (by simp [hover])

theorem isOwn_selected (hown : a.isOwn stuck = true) (hclosing : w.isClosing = true) :
    a.received = [] ∧ a.selected true w = true := by
  have hphase : w.phase ≠ .selecting := fun hphase => by simp [isClosing, hphase] at hclosing
  cases a with
  | joined i => exact ⟨rfl, by simpa [WorkerAct.selected] using hphase⟩
  | drained | timedOut | allJoined | cancelled i => exact ⟨rfl, rfl⟩
  | _ => cases hown

theorem converges :
    Converges (stepOwn stuck) (fun w => (w.Numbered ∧ w.Unstuck stuck) ∧ w.isClosing = true ∧
      w.phase ≠ .crashed) (fun w => w.isLive = false) left where
  keeps t a t' ht h := by
    obtain ⟨hown, hstep⟩ := stepOwn_some h
    have hsteps := step_spec hstep
    have hlive := step_live hstep
    refine ⟨⟨ht.1.1.step hsteps.effect, ht.1.2.step hown hsteps⟩,
      (hsteps.closing hlive ht.2.1).2, fun hcrash => ?_⟩
    obtain rfl := hsteps.crashes hlive hcrash
    cases hown
  decreases t a t' ht h := by
    obtain ⟨hown, hstep⟩ := stepOwn_some h
    obtain ⟨hnone, hselected⟩ := isOwn_selected hown ht.2.1
    exact (step_spec hstep).left_lt (step_live hstep) ht.1.1 (by simp [hnone]) hselected
  progress t ht hlive := stepOwn_enabled ht.1.1.nodup ht.1.2 ht.2.1 (by simpa using hlive)

theorem stuck_kept (hids : (w.tasks.map Task.id).Nodup) (hw : Steps w a w')
    (hown : a.isOwn stuck = true) {t : Task} (ht : t ∈ w.tasks) (hstuck : t.id ∈ stuck)
    (hopen : t.isOver = false) : t ∈ w'.tasks := by
  cases hw with
  | joined ht' hover hjoin =>
    rw [(join_some hjoin).1]
    refine List.mem_filter.mpr ⟨ht, ?_⟩
    simp only [decide_eq_true_eq]
    intro hid
    obtain rfl := List.inj_on_of_nodup_map hids ht (task_mem ht') hid
    exact absurd (hopen.symm.trans hover) (by decide)
  | cancelled ht' hphase hopen' =>
    refine Table.mem_put_of_mem ht fun n hn hid => ?_
    obtain rfl := List.mem_singleton.mp hn
    have hnot := task_id ht' ▸ hown
    simp only [WorkerAct.isOwn, decide_eq_true_eq] at hnot
    exact hnot (hid ▸ hstuck)
  | drained | timedOut | allJoined => exact ht
  | _ => cases hown

/-- By itself a closing worker comes to its report exactly if no task at work is stuck. -/
theorem reports_iff (hnum : w.Numbered) (hclosing : w.isClosing = true)
    (hcrash : w.phase ≠ .crashed) (htasks : ∀ report, w.phase = .stopped report → w.tasks = []) :
    (∃ w' report, Reaches (stepOwn stuck) w w' ∧ w'.phase = .stopped report) ↔
      w.Unstuck stuck := by
  constructor
  · rintro ⟨w', report, hreach, hstopped⟩ t ht hstuck
    by_contra hover
    have hopen : t.isOver = false := by simpa using hover
    have key : w'.Numbered ∧ t ∈ w'.tasks ∧ ∀ report, w'.phase ≠ .stopped report := by
      refine hreach.invariant (P := fun u => u.Numbered ∧ t ∈ u.tasks ∧
        ∀ report, u.phase ≠ .stopped report) ⟨hnum, ht, fun report hphase => ?_⟩ ?_
      · rw [htasks report hphase] at ht
        cases ht
      · rintro u a u' - ⟨hu, hmem, -⟩ ha
        obtain ⟨hown, hstep⟩ := stepOwn_some ha
        have hsteps := step_spec hstep
        have hkept := stuck_kept hu.nodup hsteps hown hmem hstuck hopen
        refine ⟨hu.step hsteps.effect, hkept, fun report hphase => ?_⟩
        rw [(hsteps.reports (step_live hstep) hphase).1] at hkept
        cases hkept
    exact key.2.2 report hstopped
  · intro hunstuck
    obtain ⟨w', hreach, ⟨-, -, hnot⟩, hover⟩ :=
      converges.finishes ⟨⟨hnum, hunstuck⟩, hclosing, hcrash⟩
    unfold isLive at hover
    split at hover
    · rename_i hphase
      exact absurd hphase hnot
    · rename_i report hphase
      exact ⟨w', report, hreach, hphase⟩
    · cases hover

end Own

end Worker

/-! ## The signal -/

/-- An execution, and whether the shutdown signal has arrived. -/
structure Signalled where
  execution : Execution
  arrived : Bool

inductive SignalAct where
  | arrive
  | act (a : WorkerAct)

namespace SignalAct

def sendsClaim : SignalAct → Bool
  | .arrive => false
  | .act a => a.sendsClaim

def takesWork : SignalAct → Bool
  | .arrive => false
  | .act a => a.takesWork

end SignalAct

namespace Signalled

variable {owner : WorkerId} {config : WorkerRuntimeConfig} {s s' : Signalled}

def worker (s : Signalled) : Worker := s.execution.worker

/-- The signal arrives once, at any time. -/
def step (s : Signalled) : SignalAct → Option Signalled
  | .arrive => if s.arrived then none else some { s with arrived := true }
  | .act a =>
    if a.selected s.arrived s.worker then
      (s.execution.step a).map fun e => { s with execution := e }
    else none

def Reachable (owner : WorkerId) (config : WorkerRuntimeConfig) (s : Signalled) : Prop :=
  Reaches step ⟨.start owner config, false⟩ s

theorem step_act {a : WorkerAct} (h : s.step (.act a) = some s') :
    a.selected s.arrived s.worker = true ∧ s'.arrived = s.arrived ∧
      s.execution.step a = some s'.execution := by
  simp only [step] at h
  split_ifs at h with hselected
  obtain ⟨e, he, rfl⟩ := Option.map_eq_some_iff.mp h
  exact ⟨hselected, rfl, he⟩

theorem Reachable.execution (h : Reachable owner config s) :
    Execution.Reachable owner config s.execution := by
  refine h.project Signalled.execution fun t a t' ha => ?_
  cases a with
  | arrive =>
    unfold step at ha
    split_ifs at ha
    obtain rfl := Option.some.inj ha
    exact .refl _
  | act a => exact .single (step_act ha).2.2

theorem step_arrived (h : Reachable owner config s) (harrived : s.arrived = true) {a : SignalAct}
    (ha : s.step a = some s') :
    s'.arrived = true ∧ s'.worker.left < s.worker.left ∧
      (if a.sendsClaim then 1 else 0) + s'.worker.claimsLeft ≤ s.worker.claimsLeft ∧
      (s.worker.isClosing = true → a.takesWork = false ∧ s'.worker.isClosing = true) := by
  cases a with
  | arrive => simp [step, harrived] at ha
  | act a =>
    obtain ⟨hselected, hsame, hstep⟩ := step_act ha
    rw [harrived] at hselected hsame
    obtain ⟨hroom, hlive, hw⟩ := Execution.step_eq_some hstep
    exact ⟨hsame, hw.left_lt hlive h.execution.tidy.numbered hroom hselected,
      hw.claimsLeft_le hselected, fun hclosing => hw.closing hlive hclosing⟩

theorem run_arrived (h : Reachable owner config s) (harrived : s.arrived = true)
    {acts : List SignalAct} (hrun : run step s acts = some s') :
    s'.arrived = true ∧ acts.length + s'.worker.left ≤ s.worker.left ∧
      acts.countP SignalAct.sendsClaim + s'.worker.claimsLeft ≤ s.worker.claimsLeft ∧
      (s.worker.isClosing = true →
        (∀ a ∈ acts, a.takesWork = false) ∧ s'.worker.isClosing = true) := by
  have key : Reachable owner config s' ∧ s'.arrived = true ∧
      acts.length + s'.worker.left ≤ s.worker.left ∧
      acts.countP SignalAct.sendsClaim + s'.worker.claimsLeft ≤ s.worker.claimsLeft ∧
      (s.worker.isClosing = true →
        (∀ a ∈ acts, a.takesWork = false) ∧ s'.worker.isClosing = true) := by
    refine run_invariant (P := fun acts t => Reachable owner config t ∧ t.arrived = true ∧
      acts.length + t.worker.left ≤ s.worker.left ∧
      acts.countP SignalAct.sendsClaim + t.worker.claimsLeft ≤ s.worker.claimsLeft ∧
      (s.worker.isClosing = true →
        (∀ a ∈ acts, a.takesWork = false) ∧ t.worker.isClosing = true))
      ⟨h, harrived, by simp, by simp, fun hclosing => ⟨by simp, hclosing⟩⟩ ?_ hrun
    rintro acts t a t' - ⟨ht, harr, hlength, hcount, hclosing⟩ ha
    obtain ⟨harr', hlt, hclaims, hquiet⟩ := step_arrived ht harr ha
    refine ⟨ht.tail ha, harr', ?_, ?_, fun hs => ?_⟩
    · rw [List.length_append, List.length_singleton]
      omega
    · rw [List.countP_append, List.countP_singleton]
      omega
    · obtain ⟨hold, hstays⟩ := hclosing hs
      obtain ⟨hnew, hstays'⟩ := hquiet hstays
      refine ⟨fun b hb => ?_, hstays'⟩
      rcases List.mem_append.mp hb with hb | hb
      · exact hold b hb
      · exact List.mem_singleton.mp hb ▸ hnew
  exact key.2

/-! ## From the signal to the drain -/

/-- A step of the loop. -/
def stepLoop (s : Signalled) (a : WorkerAct) : Option Signalled :=
  if a.isLoop then s.step (.act a) else none

theorem stepLoop_some {a : WorkerAct} (h : s.stepLoop a = some s') :
    a.isLoop = true ∧ s.step (.act a) = some s' := by
  unfold stepLoop at h
  split_ifs at h with hloop
  exact ⟨hloop, h⟩

theorem step_loop {a : WorkerAct} {w : Worker} (hloop : a.isLoop = true)
    (hnone : a.received = []) (hselected : a.selected s.arrived s.worker = true)
    (hw : s.worker.step a = some w) : ∃ s', s.stepLoop a = some s' := by
  have hroom : a.received.length ≤ s.execution.worker.free := by simp [hnone]
  rw [stepLoop, if_pos hloop, step, if_pos hselected, Execution.step_eq hroom hw]
  exact ⟨_, rfl⟩

/-- On its way to the drain the loop only waits for the store. -/
theorem stepLoop_enabled (harrived : s.arrived = true)
    (hopen : ¬ (s.worker.isClosing = true ∨ ∃ c, s.worker.phase = .claiming c)) :
    ∃ a s', s.stepLoop a = some s' := by
  have hlive : s.worker.isLive = true := by
    unfold Worker.isLive
    unfold Worker.isClosing at hopen
    split <;> simp_all
  have hgo : ∀ {a : WorkerAct} {w : Worker}, a.isLoop = true → a.received = [] →
      a.selected true s.worker = true → a.task = none → s.worker.stepLoop a = some w →
      ∃ a s', s.stepLoop a = some s' := by
    intro a w hloop hnone hselected htask hw
    rw [← Worker.step_loop hlive htask] at hw
    exact ⟨a, step_loop hloop hnone (by rwa [harrived]) hw⟩
  cases hphase : s.worker.phase with
  | joining =>
    rcases Nat.eq_zero_or_pos s.worker.free with hfree | hfree
    · exact hgo (a := .claimSkipped) rfl rfl rfl rfl (if_pos ⟨hphase, hfree⟩)
    · exact hgo (a := .claimSent 0) rfl rfl rfl rfl (if_pos ⟨hphase, hfree⟩)
  | spawning claims =>
    cases claims with
    | nil => exact hgo (a := .spawnDone) rfl rfl rfl rfl (if_pos hphase)
    | cons claim claims =>
      refine hgo (a := .spawned) rfl rfl rfl rfl
        (w := { s.worker.spawn claim with phase := .spawning claims }) ?_
      rw [Worker.stepLoop, hphase]
  | selecting => exact hgo (a := .shutdown) rfl rfl rfl rfl (if_pos hphase)
  | claiming c => exact absurd (.inr ⟨c, hphase⟩) hopen
  | _ => exact absurd (.inl (by simp [Worker.isClosing, hphase])) hopen

theorem stepLoop_converges :
    Converges stepLoop (fun s => Reachable owner config s ∧ s.arrived = true)
      (fun s => s.worker.isClosing = true ∨ ∃ c, s.worker.phase = .claiming c)
      (fun s => s.worker.left) where
  keeps t a t' ht h := by
    have hstep := (stepLoop_some h).2
    exact ⟨ht.1.tail hstep, (step_arrived ht.1 ht.2 hstep).1⟩
  decreases t a t' ht h := (step_arrived ht.1 ht.2 (stepLoop_some h).2).2.1
  progress t ht hopen := stepLoop_enabled ht.2 hopen

/-- **The end of a worker.** From the arrival of the shutdown signal on, a worker takes a bounded
number of steps and sends at most one claim, and that only if it had left its `select!` before. The
steps of its loop lead to the drain, unless it waits for the store's answer to a claim. From the
drain on it takes no work. By itself, without any answer of the processor or the store, a closing
worker that has not crashed comes to its report exactly if every task that never returns from its
poll is over. -/
theorem shutdown_ends (h : Reachable owner config s) (harrived : s.arrived = true)
    {acts : List SignalAct} (hrun : run step s acts = some s') :
    acts.length ≤ 9 * config.concurrency + 6 ∧
    acts.countP SignalAct.sendsClaim ≤ (if s.worker.phase = .joining then 1 else 0) ∧
    (∃ s'', Reaches stepLoop s' s'' ∧
      (s''.worker.isClosing = true ∨ ∃ c, s''.worker.phase = .claiming c)) ∧
    (s.worker.phase = .draining →
      (∀ a ∈ acts, a.takesWork = false) ∧ acts.length ≤ 4 * s.worker.tasks.length + 2) ∧
    (s'.worker.isClosing = true → s'.worker.phase ≠ .crashed → ∀ stuck : List ℕ,
      (∃ w report, Reaches (Worker.stepOwn stuck) s'.worker w ∧ w.phase = .stopped report) ↔
        ∀ t ∈ s'.worker.tasks, t.id ∈ stuck → t.isOver = true) := by
  obtain ⟨harrived', hlength, hcount, hclosing⟩ := run_arrived h harrived hrun
  have h' : Reachable owner config s' := h.trans ⟨acts, hrun⟩
  have htidy := h.execution.tidy
  refine ⟨?_, ?_, ?_, fun hphase => ⟨?_, ?_⟩, fun hclosed hcrash stuck => ?_⟩
  · have hle : s.worker.left ≤ 9 * s.worker.config.concurrency + 6 := Worker.left_le htidy.bound
    have hconfig : s.worker.config = config := htidy.config
    rw [hconfig] at hle
    omega
  · exact (Nat.le_add_right _ _).trans hcount
  · obtain ⟨s'', hreach, -, hdone⟩ := stepLoop_converges.finishes ⟨h', harrived'⟩
    exact ⟨s'', hreach, hdone⟩
  · exact (hclosing (by simp [Worker.isClosing, hphase])).1
  · have hle := Worker.left_of_draining hphase
    omega
  · exact Worker.reports_iff h'.execution.tidy.numbered hclosed hcrash fun report hstopped =>
      (h'.execution.accounted.closing.stopped report hstopped).1

/-- What comes after a signal that arrives while a claim is under way: the claim is received, and
its event is processed. -/
def signalledRun : List SignalAct :=
  [.act (.claimReturned (.ok [Execution.sampleClaim 7])), .act .spawned, .act .spawnDone,
    .act .shutdown, .act (.processReturned 0 true), .act (.completeSent 0 1)]

/-- The task waits for its completion, and can be aborted there. -/
theorem shutdown_ends_claiming :
    ∃ s s', run step ⟨.start ⟨1⟩ ⟨1, 10⟩, false⟩ [.act (.claimSent 0), .arrive] = some s ∧
      s.worker.phase = .claiming 0 ∧ run step s signalledRun = some s' ∧
      signalledRun.countP SignalAct.sendsClaim ≤ 0 ∧
      (∃ w report, Reaches (Worker.stepOwn []) s'.worker w ∧ w.phase = .stopped report) ∧
      ¬ ∃ w report, Reaches (Worker.stepOwn [0]) s'.worker w ∧ w.phase = .stopped report := by
  have hrun : (run step ⟨.start ⟨1⟩ ⟨1, 10⟩, false⟩ [.act (.claimSent 0), .arrive]).bind (fun s =>
      (run step s signalledRun).map fun s' => (s.arrived, s.worker.phase, s'.worker.isClosing,
        s'.worker.phase, decide (∃ t ∈ s'.worker.tasks, t.id = 0 ∧ t.isOver = false))) =
      some (true, .claiming 0, true, .draining, true) := by decide +kernel
  obtain ⟨s, hs, hobs⟩ := Option.bind_eq_some_iff.mp hrun
  obtain ⟨s', hs', hobs⟩ := Option.map_eq_some_iff.mp hobs
  simp only [Prod.mk.injEq, decide_eq_true_eq] at hobs
  obtain ⟨harrived, hphase, hclosing, hphase', t, ht, hid, hopen⟩ := hobs
  obtain ⟨-, hcount, -, -, hends⟩ := shutdown_ends ⟨_, hs⟩ harrived hs'
  have hiff := hends hclosing (by simp [hphase'])
  refine ⟨s, s', hs, hphase, hs', by simpa [hphase] using hcount, (hiff []).mpr (by simp), ?_⟩
  intro hreport
  have hover := (hiff [0]).mp hreport t ht (by simp [hid])
  rw [hopen] at hover
  cases hover

end Signalled

end PulseStream
