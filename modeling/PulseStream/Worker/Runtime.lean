import PulseStream.Store.Delivery

/-!
# The worker loop

`runtime::run` of `pulsestream-worker/src/runtime.rs` as a machine of its own: the loop that joins
tasks, claims for its free slots, spawns one task for each claim and waits, the tasks running
`process_claim`, and the drain. Whatever comes from outside (a reply of the store, a processor's
result, the shutdown signal, a timer) is part of the action. The poll interval and the shutdown
timeout only say when an action may come, so they do not occur.
-/

namespace PulseStream

/-- The fields of `WorkerRuntimeConfig` that the loop computes with. -/
structure WorkerRuntimeConfig where
  concurrency : ℕ
  lease : ℕ
  deriving DecidableEq

/-- Outcome of `run`. -/
structure RunReport where
  processed : ℕ
  failed : ℕ
  lostClaims : ℕ
  timedOut : Bool
  abandoned : ℕ
  deriving DecidableEq

/-- Where `process_claim` is: in the processor, about to complete, waiting for the completion's
answer, or over in one of three ways. -/
inductive TaskStage where
  | processing
  | processed
  | completing (call : ℕ)
  | finished
  | panicked
  | cancelled
  deriving DecidableEq

/-- A task of the `JoinSet`. -/
structure Task where
  id : ℕ
  claim : ClaimedEvent (Json Token)
  stage : TaskStage
  deriving DecidableEq

def Task.isOver (t : Task) : Bool :=
  match t.stage with
  | .finished => true
  | .panicked => true
  | .cancelled => true
  | _ => false

/-- Where `run` is. `claiming` waits for the call with the given number, `spawning` has claims left
without a task, `aborting` is `tasks.shutdown()`. -/
inductive Phase where
  | joining
  | claiming (call : ℕ)
  | spawning (claims : List (ClaimedEvent (Json Token)))
  | selecting
  | draining
  | aborting (abandoned : ℕ)
  | stopped (report : RunReport)
  | crashed
  deriving DecidableEq

/-- A worker process in `run`. -/
structure Worker where
  owner : WorkerId
  config : WorkerRuntimeConfig
  phase : Phase
  tasks : List Task
  running : List (ℕ × EventId)
  databaseAvailable : Bool
  nextTask : ℕ
  processed : ℕ
  failed : ℕ
  lostClaims : ℕ
  deriving DecidableEq

/-- What can happen to a worker. -/
inductive WorkerAct where
  | joined (task : ℕ)
  | claimSkipped
  | claimSent (call : ℕ)
  | claimReturned (result : Except StoreError (List (ClaimedEvent (Json Token))))
  | spawned
  | spawnDone
  | shutdown
  | poll
  | drained
  | timedOut
  | allJoined
  | processReturned (task : ℕ) (ok : Bool)
  | processPanicked (task : ℕ)
  | completeSent (task call : ℕ)
  | completeReturned (task : ℕ) (result : Except StoreError Bool)
  | cancelled (task : ℕ)
  | crashed

namespace Worker

/-- A worker as it enters the loop. -/
def start (owner : WorkerId) (config : WorkerRuntimeConfig) : Worker where
  owner := owner
  config := config
  phase := .joining
  tasks := []
  running := []
  databaseAvailable := true
  nextTask := 0
  processed := 0
  failed := 0
  lostClaims := 0

/-- `config.concurrency - tasks.len()`. -/
def free (w : Worker) : ℕ := w.config.concurrency - w.tasks.length

def task (w : Worker) (i : ℕ) : Option Task := Table.lookup Task.id i w.tasks

def setStage (w : Worker) (t : Task) (stage : TaskStage) : Worker :=
  { w with tasks := Table.put Task.id [{ t with stage := stage }] w.tasks }

/-- The task leaves the `JoinSet`. -/
def removeTask (w : Worker) (t : Task) : Worker :=
  { w with tasks := w.tasks.filter fun t' => t'.id ≠ t.id }

/-- `record_join`. A panic is counted here, every other outcome by the task itself. -/
def recordJoin (w : Worker) (t : Task) : Worker :=
  { w.removeTask t with
    running := w.running.filter fun entry => entry.1 ≠ t.id
    failed := w.failed + if t.stage = .panicked then 1 else 0 }

/-- One turn of the loop `for claim in claims`. -/
def spawn (w : Worker) (claim : ClaimedEvent (Json Token)) : Worker :=
  { w with
    tasks := w.tasks ++ [⟨w.nextTask, claim, .processing⟩]
    running := w.running ++ [(w.nextTask, claim.event.id)]
    nextTask := w.nextTask + 1 }

def report (w : Worker) (timedOut : Bool) (abandoned : ℕ) : RunReport :=
  ⟨w.processed, w.failed, w.lostClaims, timedOut, abandoned⟩

/-- A task that is over is joined. The shutdown of the `JoinSet` does not look at results. -/
def join (w : Worker) (t : Task) : Option Worker :=
  match w.phase with
  | .joining => some (w.recordJoin t)
  | .selecting => some { w.recordJoin t with phase := .joining }
  | .draining => some (w.recordJoin t)
  | .aborting _ => some (w.removeTask t)
  | _ => none

/-- The end of `process_claim`: the result of `Store::complete` is counted. -/
def countCompletion (w : Worker) (t : Task) : Except StoreError Bool → Worker
  | .ok true => { w.setStage t .finished with processed := w.processed + 1 }
  | .ok false => { w.setStage t .finished with lostClaims := w.lostClaims + 1 }
  | .error _ => { w.setStage t .finished with failed := w.failed + 1 }

/-- What a task does; its worker is alive. -/
def stepTask (w : Worker) (t : Task) : WorkerAct → Option Worker
  | .joined _ => if t.isOver then w.join t else none
  | .processReturned _ ok =>
    if t.stage = .processing then
      if ok then some (w.setStage t .processed)
      else some { w.setStage t .finished with failed := w.failed + 1 }
    else none
  | .processPanicked _ => if t.stage = .processing then some (w.setStage t .panicked) else none
  | .completeSent _ call =>
    if t.stage = .processed then some (w.setStage t (.completing call)) else none
  | .completeReturned _ result =>
    match t.stage with
    | .completing _ => some (w.countCompletion t result)
    | _ => none
  | .cancelled _ =>
    -- an abort takes effect where the task yields; a task that never does has no such step
    match w.phase with
    | .aborting _ => if t.isOver then none else some (w.setStage t .cancelled)
    | _ => none
  | _ => none

/-- What the loop does. -/
def stepLoop (w : Worker) : WorkerAct → Option Worker
  | .claimSkipped =>
    if w.phase = .joining ∧ w.free = 0 then some { w with phase := .selecting } else none
  | .claimSent call =>
    if w.phase = .joining ∧ 0 < w.free then some { w with phase := .claiming call } else none
  | .claimReturned result =>
    match w.phase, result with
    | .claiming _, .ok claims =>
      some { w with databaseAvailable := true, phase := .spawning claims }
    | .claiming _, .error _ => some { w with databaseAvailable := false, phase := .selecting }
    | _, _ => none
  | .spawned =>
    match w.phase with
    | .spawning (claim :: claims) => some { w.spawn claim with phase := .spawning claims }
    | _ => none
  | .spawnDone => if w.phase = .spawning [] then some { w with phase := .selecting } else none
  -- the branch of the `select!`; when the signal itself arrives is said in `Signalled`
  | .shutdown => if w.phase = .selecting then some { w with phase := .draining } else none
  | .poll =>
    if w.phase = .selecting ∧ w.tasks.length < w.config.concurrency then
      some { w with phase := .joining }
    else none
  | .drained =>
    if w.phase = .draining ∧ w.tasks = [] then
      some { w with phase := .stopped (w.report false 0) }
    else none
  | .timedOut =>
    if w.phase = .draining ∧ w.tasks ≠ [] then some { w with phase := .aborting w.tasks.length }
    else none
  | .allJoined =>
    match w.phase with
    | .aborting abandoned =>
      if w.tasks = [] then some { w with phase := .stopped (w.report true abandoned) } else none
    | _ => none
  | .crashed => some { w with phase := .crashed }
  | _ => none

end Worker

/-- The task an action is about. -/
def WorkerAct.task : WorkerAct → Option ℕ
  | .joined i => some i
  | .processReturned i _ => some i
  | .processPanicked i => some i
  | .completeSent i _ => some i
  | .completeReturned i _ => some i
  | .cancelled i => some i
  | _ => none

/-- One step of a worker process; a crashed or stopped one takes none. -/
def Worker.step (w : Worker) (a : WorkerAct) : Option Worker :=
  match w.phase with
  | .crashed => none
  | .stopped _ => none
  | _ =>
    match a.task with
    | some i => do
      let t ← w.task i
      w.stepTask t a
    | none => w.stepLoop a

end PulseStream
