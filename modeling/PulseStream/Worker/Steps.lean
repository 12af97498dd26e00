import PulseStream.Worker.Runtime

/-!
# What a step of a worker can do

`Worker.Steps` lists the steps of a worker and `Worker.step_spec` says there are no others. The
second part reads off it where the tasks, the claims, the counter of processed events and the
report of a worker come from.
-/

namespace PulseStream

def WorkerAct.sendsClaim : WorkerAct → Bool
  | .claimSent _ => true
  | _ => false

/-! ## The inversion of `step` -/

namespace Worker

variable {w w' : Worker} {a : WorkerAct}

/-- Everything a step can do. -/
inductive Steps (w : Worker) : WorkerAct → Worker → Prop
  | joined {i : ℕ} {t : Task} {w' : Worker} (ht : w.task i = some t) (hover : t.isOver = true)
      (h : w.join t = some w') : Steps w (.joined i) w'
  | processOk {i : ℕ} {t : Task} (ht : w.task i = some t) (hstage : t.stage = .processing) :
      Steps w (.processReturned i true) (w.setStage t .processed)
  | processErr {i : ℕ} {t : Task} (ht : w.task i = some t) (hstage : t.stage = .processing) :
      Steps w (.processReturned i false) { w.setStage t .finished with failed := w.failed + 1 }
  | panicked {i : ℕ} {t : Task} (ht : w.task i = some t) (hstage : t.stage = .processing) :
      Steps w (.processPanicked i) (w.setStage t .panicked)
  | sent {i c : ℕ} {t : Task} (ht : w.task i = some t) (hstage : t.stage = .processed) :
      Steps w (.completeSent i c) (w.setStage t (.completing c))
  | completed {i c : ℕ} {t : Task} (ht : w.task i = some t) (hstage : t.stage = .completing c)
      (result : Except StoreError Bool) :
      Steps w (.completeReturned i result) (w.countCompletion t result)
  | cancelled {i n : ℕ} {t : Task} (ht : w.task i = some t) (hphase : w.phase = .aborting n)
      (hover : t.isOver = false) : Steps w (.cancelled i) (w.setStage t .cancelled)
  | skipped (hphase : w.phase = .joining) (hfree : w.free = 0) :
      Steps w .claimSkipped { w with phase := .selecting }
  | claimSent {c : ℕ} (hphase : w.phase = .joining) (hfree : 0 < w.free) :
      Steps w (.claimSent c) { w with phase := .claiming c }
  | claimOk {c : ℕ} {claims : List (ClaimedEvent (Json Token))} (hphase : w.phase = .claiming c) :
      Steps w (.claimReturned (.ok claims))
        { w with databaseAvailable := true, phase := .spawning claims }
  | claimErr {c : ℕ} {e : StoreError} (hphase : w.phase = .claiming c) :
      Steps w (.claimReturned (.error e)) { w with databaseAvailable := false, phase := .selecting }
  | spawned {claim : ClaimedEvent (Json Token)} {claims : List (ClaimedEvent (Json Token))}
      (hphase : w.phase = .spawning (claim :: claims)) :
      Steps w .spawned { w.spawn claim with phase := .spawning claims }
  | spawnDone (hphase : w.phase = .spawning []) : Steps w .spawnDone { w with phase := .selecting }
  | shutdown (hphase : w.phase = .selecting) : Steps w .shutdown { w with phase := .draining }
  | poll (hphase : w.phase = .selecting) (hslot : w.tasks.length < w.config.concurrency) :
      Steps w .poll { w with phase := .joining }
  | drained (hphase : w.phase = .draining) (htasks : w.tasks = []) :
      Steps w .drained { w with phase := .stopped (w.report false 0) }
  | timedOut (hphase : w.phase = .draining) (htasks : w.tasks ≠ []) :
      Steps w .timedOut { w with phase := .aborting w.tasks.length }
  | allJoined {n : ℕ} (hphase : w.phase = .aborting n) (htasks : w.tasks = []) :
      Steps w .allJoined { w with phase := .stopped (w.report true n) }
  | crashed : Steps w .crashed { w with phase := .crashed }

theorem stepTask_spec {i : ℕ} {t : Task} (hi : a.task = some i) (ht : w.task i = some t)
    (h : w.stepTask t a = some w') : Steps w a w' := by
  cases a with
  | joined j =>
    obtain rfl := Option.some.inj hi
    simp only [stepTask] at h
    split_ifs at h with hover
    exact .joined ht hover h
  | processReturned j ok =>
    obtain rfl := Option.some.inj hi
    simp only [stepTask] at h
    split_ifs at h with hstage hok
    · obtain rfl := Option.some.inj h
      subst hok
      exact .processOk ht hstage
    · obtain rfl := Option.some.inj h
      obtain rfl := Bool.eq_false_of_not_eq_true hok
      exact .processErr ht hstage
  | processPanicked j =>
    obtain rfl := Option.some.inj hi
    simp only [stepTask] at h
    split_ifs at h with hstage
    obtain rfl := Option.some.inj h
    exact .panicked ht hstage
  | completeSent j c =>
    obtain rfl := Option.some.inj hi
    simp only [stepTask] at h
    split_ifs at h with hstage
    obtain rfl := Option.some.inj h
    exact .sent ht hstage
  | completeReturned j result =>
    obtain rfl := Option.some.inj hi
    simp only [stepTask] at h
    split at h
    · rename_i c hstage
      obtain rfl := Option.some.inj h
      exact .completed ht hstage result
    · cases h
  | cancelled j =>
    obtain rfl := Option.some.inj hi
    simp only [stepTask] at h
    split at h
    · rename_i n hphase
      split_ifs at h with hover
      obtain rfl := Option.some.inj h
      exact .cancelled ht hphase (by simpa using hover)
    · cases h
  | _ => cases hi

theorem stepLoop_spec (h : w.stepLoop a = some w') : Steps w a w' := by
  cases a with
  | claimSkipped =>
    simp only [stepLoop] at h
    split_ifs at h with hc
    exact Option.some.inj h ▸ .skipped hc.1 hc.2
  | claimSent c =>
    simp only [stepLoop] at h
    split_ifs at h with hc
    exact Option.some.inj h ▸ .claimSent hc.1 hc.2
  | claimReturned result =>
    simp only [stepLoop] at h
    split at h
    · rename_i hphase
      exact Option.some.inj h ▸ .claimOk hphase
    · rename_i hphase
      exact Option.some.inj h ▸ .claimErr hphase
    · cases h
  | spawned =>
    simp only [stepLoop] at h
    split at h
    · rename_i hphase
      exact Option.some.inj h ▸ .spawned hphase
    · cases h
  | spawnDone =>
    simp only [stepLoop] at h
    split_ifs at h with hc
    exact Option.some.inj h ▸ .spawnDone hc
  | shutdown =>
    simp only [stepLoop] at h
    split_ifs at h with hc
    exact Option.some.inj h ▸ .shutdown hc
  | poll =>
    simp only [stepLoop] at h
    split_ifs at h with hc
    exact Option.some.inj h ▸ .poll hc.1 hc.2
  | drained =>
    simp only [stepLoop] at h
    split_ifs at h with hc
    exact Option.some.inj h ▸ .drained hc.1 hc.2
  | timedOut =>
    simp only [stepLoop] at h
    split_ifs at h with hc
    exact Option.some.inj h ▸ .timedOut hc.1 hc.2
  | allJoined =>
    simp only [stepLoop] at h
    split at h
    · rename_i n hphase
      split_ifs at h with hc
      exact Option.some.inj h ▸ .allJoined hphase hc
    · cases h
  | crashed => exact Option.some.inj h ▸ .crashed
  | _ => cases h

theorem step_spec (h : w.step a = some w') : Steps w a w' := by
  unfold step at h
  split at h
  · cases h
  · cases h
  · split at h
    · rename_i i hi
      obtain ⟨t, ht, hstep⟩ := Option.bind_eq_some_iff.mp h
      exact stepTask_spec hi ht hstep
    · exact stepLoop_spec h

/-- A worker that has neither stopped nor crashed. -/
def isLive (w : Worker) : Bool :=
  match w.phase with
  | .crashed => false
  | .stopped _ => false
  | _ => true

theorem step_live (h : w.step a = some w') : w.isLive = true := by
  unfold step at h
  unfold isLive
  split at h <;> simp_all

theorem step_loop (hlive : w.isLive = true) (ha : a.task = none) : w.step a = w.stepLoop a := by
  unfold isLive at hlive
  unfold step
  split at hlive <;> simp_all

theorem step_task (hlive : w.isLive = true) {i : ℕ} {t : Task} (ha : a.task = some i)
    (ht : w.task i = some t) : w.step a = w.stepTask t a := by
  unfold isLive at hlive
  unfold step
  split at hlive <;> simp_all

/-! ## What a step changes -/

theorem task_mem {i : ℕ} {t : Task} (h : w.task i = some t) : t ∈ w.tasks := Table.lookup_mem h

theorem task_id {i : ℕ} {t : Task} (h : w.task i = some t) : t.id = i := Table.lookup_key h

theorem mem_setStage {t t' : Task} {stage : TaskStage} (h : t' ∈ (w.setStage t stage).tasks) :
    t' ∈ w.tasks ∨ t' = { t with stage := stage } := by
  obtain ⟨t₀, ht₀, -, hnew | ⟨rfl, -⟩⟩ := Table.mem_put h
  · exact .inr (List.mem_singleton.mp hnew)
  · exact .inl ht₀

theorem task_setStage {i : ℕ} {t : Task} (ht : w.task i = some t) (stage : TaskStage) :
    (w.setStage t stage).task i = some { t with stage := stage } := by
  have hput : (w.setStage t stage).task i =
      (Table.lookup Task.id i [{ t with stage := stage }]).or (w.task i) :=
    Table.lookup_put fun n hn => ⟨t, task_mem ht, by rw [List.mem_singleton.mp hn]⟩
  rw [hput]
  simp [Table.lookup, task_id ht]

theorem join_some {t : Task} (h : w.join t = some w') :
    w'.tasks = w.tasks.filter (fun t' => t'.id ≠ t.id) ∧ w'.owner = w.owner ∧
      w'.processed = w.processed ∧ w'.isLive = true ∧ (∀ claims, w'.phase ≠ .spawning claims) := by
  unfold join at h
  split at h
  case h_5 => cases h
  all_goals
    rename_i hphase
    obtain rfl := Option.some.inj h
    simp [recordJoin, removeTask, isLive, hphase]

theorem countCompletion_spec (w : Worker) (t : Task) (result : Except StoreError Bool) :
    (w.countCompletion t result).tasks = (w.setStage t .finished).tasks ∧
      (w.countCompletion t result).owner = w.owner ∧
      (w.countCompletion t result).phase = w.phase ∧
      (w.countCompletion t result).processed =
        w.processed + (match result with | .ok true => 1 | _ => 0) := by
  unfold countCompletion
  split <;> exact ⟨rfl, rfl, rfl, rfl⟩

theorem Steps.owner (h : Steps w a w') : w'.owner = w.owner := by
  cases h with
  | joined ht hover h => exact (join_some h).2.1
  | completed ht hstage result => exact (countCompletion_spec w _ result).2.1
  | _ => rfl

/-- Where a task of the worker comes from: it was there, it was spawned, or it has moved on. -/
inductive TaskOrigin (w : Worker) : WorkerAct → Task → Prop
  | kept {a : WorkerAct} {t : Task} (ht : t ∈ w.tasks) : TaskOrigin w a t
  | spawned {a : WorkerAct} {claim : ClaimedEvent (Json Token)}
      {claims : List (ClaimedEvent (Json Token))} (hphase : w.phase = .spawning (claim :: claims)) :
      TaskOrigin w a ⟨w.nextTask, claim, .processing⟩
  | ended {a : WorkerAct} {t : Task} {stage : TaskStage} (ht : t ∈ w.tasks)
      (hover : ({ t with stage := stage } : Task).isOver = true) :
      TaskOrigin w a { t with stage := stage }
  | processed {t : Task} (ht : w.task t.id = some t) :
      TaskOrigin w (.processReturned t.id true) { t with stage := .processed }
  | sent {c : ℕ} {t : Task} (ht : w.task t.id = some t) (hstage : t.stage = .processed) :
      TaskOrigin w (.completeSent t.id c) { t with stage := .completing c }

theorem Steps.tasks (h : Steps w a w') {t' : Task} (ht' : t' ∈ w'.tasks) : TaskOrigin w a t' := by
  -- the steps that end a task
  have hover : ∀ {b : WorkerAct} {i : ℕ} {t : Task} {stage : TaskStage}, w.task i = some t →
      ({ t with stage := stage } : Task).isOver = true → t' ∈ (w.setStage t stage).tasks →
      TaskOrigin w b t' := by
    intro b i t stage ht hover hmem
    rcases mem_setStage hmem with hkept | rfl
    · exact .kept hkept
    · exact .ended (task_mem ht) hover
  cases h with
  | joined ht h hjoin =>
    rw [(join_some hjoin).1] at ht'
    exact .kept (List.mem_of_mem_filter ht')
  | processOk ht hstage =>
    obtain rfl := task_id ht
    rcases mem_setStage ht' with hkept | rfl
    · exact .kept hkept
    · exact .processed ht
  | processErr ht hstage => exact hover ht rfl ht'
  | panicked ht hstage => exact hover ht rfl ht'
  | sent ht hstage =>
    obtain rfl := task_id ht
    rcases mem_setStage ht' with hkept | rfl
    · exact .kept hkept
    · exact .sent ht hstage
  | completed ht hstage result =>
    rw [(countCompletion_spec w _ result).1] at ht'
    exact hover ht rfl ht'
  | cancelled ht hphase h => exact hover ht rfl ht'
  | spawned hphase =>
    rcases List.mem_append.mp ht' with hkept | hnew
    · exact .kept hkept
    · obtain rfl := List.mem_singleton.mp hnew
      exact .spawned hphase
  | _ => exact .kept ht'

/-- The claims a worker holds, with or without a task. -/
def claims (w : Worker) : List (ClaimedEvent (Json Token)) :=
  w.tasks.map (·.claim) ++ match w.phase with
    | .spawning claims => claims
    | _ => []

theorem mem_claims {x : ClaimedEvent (Json Token)} :
    x ∈ w.claims ↔
      (∃ t ∈ w.tasks, t.claim = x) ∨ ∃ claims, w.phase = .spawning claims ∧ x ∈ claims := by
  unfold claims
  rw [List.mem_append, List.mem_map]
  refine or_congr_right ?_
  split
  · rename_i claims hphase
    simp [hphase]
  · rename_i hphase
    simpa using fun claims hclaims => absurd hclaims (hphase claims)

theorem Steps.spawning (h : Steps w a w') {claims : List (ClaimedEvent (Json Token))}
    (hphase : w'.phase = .spawning claims) :
    (∃ claims₀, w.phase = .spawning claims₀ ∧ claims ⊆ claims₀) ∨
      a = .claimReturned (.ok claims) := by
  cases h with
  | joined ht hover hjoin => exact absurd hphase ((join_some hjoin).2.2.2.2 claims)
  | completed ht hstage result =>
    rw [(countCompletion_spec w _ result).2.2.1] at hphase
    exact .inl ⟨claims, hphase, List.Subset.refl _⟩
  | claimOk h => exact .inr (by rw [Phase.spawning.inj hphase])
  | @spawned claim claims₀ h =>
    obtain rfl := Phase.spawning.inj hphase
    exact .inl ⟨claim :: claims₀, h, List.subset_cons_self _ _⟩
  | processOk | processErr | panicked | sent | cancelled =>
    exact .inl ⟨claims, hphase, List.Subset.refl _⟩
  | _ => cases hphase

theorem Steps.claims (h : Steps w a w') {x : ClaimedEvent (Json Token)} (hx : x ∈ w'.claims) :
    x ∈ w.claims ∨ ∃ xs, a = .claimReturned (.ok xs) ∧ x ∈ xs := by
  rcases mem_claims.mp hx with ⟨t', ht', rfl⟩ | ⟨claims, hphase, hmem⟩
  · cases h.tasks ht' with
    | kept ht => exact .inl (mem_claims.mpr (.inl ⟨_, ht, rfl⟩))
    | spawned hphase => exact .inl (mem_claims.mpr (.inr ⟨_, hphase, List.mem_cons_self⟩))
    | ended ht hover => exact .inl (mem_claims.mpr (.inl ⟨_, ht, rfl⟩))
    | processed ht => exact .inl (mem_claims.mpr (.inl ⟨_, task_mem ht, rfl⟩))
    | sent ht hstage => exact .inl (mem_claims.mpr (.inl ⟨_, task_mem ht, rfl⟩))
  · rcases h.spawning hphase with ⟨claims₀, hphase₀, hsub⟩ | rfl
    · exact .inl (mem_claims.mpr (.inr ⟨claims₀, hphase₀, hsub hmem⟩))
    · exact .inr ⟨claims, rfl, hmem⟩

theorem Steps.processed (h : Steps w a w') :
    w'.processed = w.processed ∨
      ∃ i, a = .completeReturned i (.ok true) ∧ w'.processed = w.processed + 1 := by
  cases h with
  | joined ht hover hjoin => exact .inl (join_some hjoin).2.2.1
  | @completed i c t ht hstage result =>
    rw [(countCompletion_spec w t result).2.2.2]
    split
    · exact .inr ⟨i, rfl, rfl⟩
    · exact .inl rfl
  | _ => exact .inl rfl

theorem Steps.reports (h : Steps w a w') (hlive : w.isLive = true) {report : RunReport}
    (hphase : w'.phase = .stopped report) :
    w'.tasks = [] ∧ ((w.phase = .draining ∧ report = w'.report false 0) ∨
      ∃ n, w.phase = .aborting n ∧ report = w'.report true n) := by
  have hnot : w.phase ≠ .stopped report := fun hstop => by simp [isLive, hstop] at hlive
  cases h with
  | joined ht hover hjoin => exact absurd (join_some hjoin).2.2.2.1 (by simp [isLive, hphase])
  | completed ht hstage result =>
    rw [(countCompletion_spec w _ result).2.2.1] at hphase
    exact absurd hphase hnot
  | drained hdrain htasks =>
    exact ⟨htasks, .inl ⟨hdrain, (Phase.stopped.inj hphase).symm⟩⟩
  | @allJoined n habort htasks =>
    exact ⟨htasks, .inr ⟨n, habort, (Phase.stopped.inj hphase).symm⟩⟩
  | processOk | processErr | panicked | sent | cancelled => exact absurd hphase hnot
  | _ => cases hphase

theorem Steps.crashes (h : Steps w a w') (hlive : w.isLive = true)
    (hcrash : w'.phase = .crashed) : a = .crashed := by
  have hnot : w.phase ≠ .crashed := fun hphase => by simp [isLive, hphase] at hlive
  cases h with
  | joined ht hover hjoin =>
    have hlive' := (join_some hjoin).2.2.2.1
    simp [isLive, hcrash] at hlive'
  | completed ht hstage result =>
    rw [(countCompletion_spec w _ result).2.2.1] at hcrash
    exact absurd hcrash hnot
  | processOk | processErr | panicked | sent | cancelled => exact absurd hcrash hnot
  | crashed => rfl
  | _ => cases hcrash

end Worker

end PulseStream
