import PulseStream.Store.ClaimRun
import PulseStream.Store.Progress
import PulseStream.System.View

/-!
# Recovery

No event whose payload can be read is ever stuck. Whatever workers have crashed in the middle of,
whoever holds leases and whatever calls are open: a fresh worker can bring every event to
`PROCESSED`. The open calls are dropped and the leases run out; then the worker claims as many
events as it has slots, processes and completes them, joins its tasks and claims again, until
nothing is left (`recovers`).

The events that are left are held by the worker or can be claimed, and nobody else moves. That is
`Recovering`; each of its moves makes `toGo` smaller.
-/

namespace PulseStream

open Machine

variable {F : Type} [SerdeJson F]

/-- The actions of requests: only they begin an admission, or have it answered. -/
def SystemAct.isHandlers : SystemAct → Bool
  | .store (.begin _) => true
  | .store (.signal _ .reply) => true
  | _ => false

/-- How the row of an event has changed since `r₀`, when the worker has the claims `pending`: not at
all, it is held by the worker, or it was held and is processed. -/
inductive Custody (owner : WorkerId) (pending : List EventId) : Row → Row → Prop
  | kept {r : Row} (hid : r.eventId ∉ pending) : Custody owner pending r r
  | held {r₀ r : Row} (hopen : r₀.status ≠ .processed) (howned : r.OwnedBy owner)
      (hid : r.eventId ∈ pending) (hn : r.deliveryAttempts = r₀.deliveryAttempts + 1) :
      Custody owner pending r₀ r
  | finished {r₀ r : Row} (hopen : r₀.status ≠ .processed) (hdone : r.status = .processed)
      (hid : r.eventId ∉ pending) (hn : r.deliveryAttempts = r₀.deliveryAttempts + 1) :
      Custody owner pending r₀ r

/-- The events of the claims that have no task yet. -/
def Worker.held (w : Worker) : List EventId := w.pending.map (·.event.id)

namespace Custody

variable {owner : WorkerId} {pending : List EventId} {id : EventId} {r₀ r : Row}

theorem owned (h : Custody owner pending r₀ r) (hid : r.eventId ∈ pending) :
    r₀.status ≠ .processed ∧ r.OwnedBy owner ∧
      r.deliveryAttempts = r₀.deliveryAttempts + 1 := by
  cases h with
  | kept hnot | finished _ _ hnot _ => exact absurd hid hnot
  | held hopen howned _ hn => exact ⟨hopen, howned, hn⟩

theorem untouched (h : Custody owner pending r₀ r) (hid : r.eventId ∉ pending)
    (hopen : r.status ≠ .processed) : r = r₀ := by
  cases h with
  | kept _ => rfl
  | held _ _ hmem _ => exact absurd hmem hid
  | finished _ hdone _ _ => exact absurd hdone hopen

theorem of_ne {pending' : List EventId} (h : Custody owner pending r₀ r)
    (hsame : r.eventId ∈ pending' ↔ r.eventId ∈ pending) : Custody owner pending' r₀ r := by
  cases h with
  | kept hid => exact .kept fun hmem => hid (hsame.mp hmem)
  | held hopen howned hid hn => exact .held hopen howned (hsame.mpr hid) hn
  | finished hopen hdone hid hn => exact .finished hopen hdone (fun hmem => hid (hsame.mp hmem)) hn

end Custody

namespace Database

variable {s s' : Database} {call : Call}

/-- The number of events that are not processed. -/
def openEvents (s : Database) : ℕ := s.events.countP fun r => r.status ≠ .processed

theorem Settled.unlocked (h : s.Settled) (id : EventId) : s.lockedBySome id = false := by
  refine List.any_eq_false.mpr fun call hmem hlock => ?_
  have hover := h call hmem
  obtain ⟨r, hr, -⟩ := List.any_eq_true.mp hlock
  unfold Call.lockedRows at hr
  split at hr
  · cases hover
  · cases hover
  · cases hr

/-- No call is open, and every admission was one of the API. -/
structure Quiet (s : Database) : Prop where
  settled : s.Settled
  fromApi : s.FromApi

theorem FromApi.append (h : s.FromApi) (hkind : ∀ args p, call ≠ .admitEvent args p)
    (hcalls : s'.calls = s.calls ++ [call]) : s'.FromApi := by
  intro i args p hi
  rw [hcalls] at hi
  rcases calls_append hi with ⟨-, heq⟩ | ⟨-, hi⟩
  · exact absurd heq.symm (hkind args p)
  · exact h i args p hi

theorem Quiet.append (h : s.Quiet) (hkind : ∀ args p, call ≠ .admitEvent args p)
    (hover : call.isRunning = false) (hcalls : s'.calls = s.calls ++ [call]) : s'.Quiet := by
  refine ⟨fun call' hmem => ?_, h.fromApi.append hkind hcalls⟩
  rw [hcalls] at hmem
  rcases List.mem_append.mp hmem with hmem | hmem
  · exact h.settled call' hmem
  · rw [List.mem_singleton.mp hmem]
    exact hover

theorem drop_running {c : ℕ} (hc : s.calls[c]? = some call) (hrun : call.isRunning = true) :
    ∃ call', s.step (.signal c .drop) = some (s.setCall c call') ∧ call'.isRunning = false ∧
      call'.request = call.request := by
  unfold Call.isRunning at hrun
  split at hrun
  · exact ⟨.admitEvent _ .dropped, by simp [step, hc, Call.signal, Progress.signal], rfl, rfl⟩
  · exact ⟨.claim _ .dropped, by simp [step, hc, Call.signal, Progress.signal], rfl, rfl⟩
  · exact ⟨.complete _ .dropped, by simp [step, hc, Call.signal, Progress.signal], rfl, rfl⟩
  · cases hrun

theorem FromApi.setCall (h : s.FromApi) {c : ℕ} {call' : Call} (hc : s.calls[c]? = some call)
    (hreq : call'.request = call.request) : (s.setCall c call').FromApi := by
  intro i args p hi
  rcases calls_setCall hi with ⟨rfl, rfl⟩ | ⟨-, hi⟩
  · cases call with
    | admitEvent args' p' =>
      obtain rfl := Request.admitEvent.inj hreq
      exact h i _ p' hc
    | claim args' p' | complete args' p' => cases hreq
  · exact h i args p hi

theorem countP_setCall {c : ℕ} {call' : Call} (hc : s.calls[c]? = some call)
    (hrun : call.isRunning = true) (hover : call'.isRunning = false) :
    (s.setCall c call').calls.countP Call.isRunning < s.calls.countP Call.isRunning := by
  have hsum : ∀ f : Call → ℕ,
      ((s.calls.set c call').map f).sum + f call = (s.calls.map f).sum + f call' :=
    fun f => Table.sum_map_set hc
  specialize hsum fun call => if call.isRunning then 1 else 0
  rw [if_pos hrun, if_neg (by simp [hover])] at hsum
  simp only [Table.countP_eq_sum, setCall]
  omega

end Database

namespace System

variable {s s' : System} {k : ℕ} {db db' : Database} {w w' : Worker}

/-- PostgreSQL can write the lease of a claim that is sent now. -/
def leaseFits (s : System) : SystemAct → Bool
  | .worker k a =>
    !a.sendsClaim || s.workers[k]?.all fun w => LeaseFits s.db.clock w.config.lease
  | _ => true

/-- A step in which no request has a part, on a clock that does not go back and is not near its
end. -/
def stepAlone (s : System) (a : SystemAct) : Option System :=
  if a.isHandlers || !s.leaseFits a then none else s.stepForward a

theorem stepAlone_some {a : SystemAct} (h : s.stepAlone a = some s') :
    a.isHandlers = false ∧ s.step a = some s' := by
  unfold stepAlone at h
  split_ifs at h with ha
  exact ⟨by simp_all, (stepForward_some h).2⟩

theorem reaches_of_alone (h : Reaches stepAlone s s') : Reaches step s s' :=
  h.project id fun _ _ _ ha => .single (stepAlone_some ha).2

/-! ## One worker and the database -/

/-- Without requests `s` leads to a system that has the database `db`, and `w` as worker `k`. -/
def Arrives (s : System) (k : ℕ) (db : Database) (w : Worker) : Prop :=
  ∃ s', Reaches stepAlone s s' ∧ s'.db = db ∧ s'.workers[k]? = some w

namespace Arrives

theorem refl (hw : s.workers[k]? = some w) : s.Arrives k s.db w := ⟨s, .refl s, rfl, hw⟩

theorem reachable (h : s.Arrives k db w) (hs : s.Reachable) : db.Reachable := by
  obtain ⟨t, ht, rfl, -⟩ := h
  exact (hs.trans (reaches_of_alone ht)).db

theorem numbered (h : s.Arrives k db w) (hs : s.Reachable) : w.Numbered := by
  obtain ⟨t, ht, -, hw⟩ := h
  exact (hs.trans (reaches_of_alone ht)).numbered hw

theorem task_row (h : s.Arrives k db w) (hs : s.Reachable) {t : Task} (ht : t ∈ w.tasks) :
    ∃ r ∈ db.events, r.eventId = t.claim.event.id := by
  obtain ⟨u, hu, rfl, hw⟩ := h
  exact (hs.trans (reaches_of_alone hu)).task_row hw ht

theorem advance {c : ℕ} (h : s.Arrives k db w) (hstep : db.step (.advance c) = some db') :
    s.Arrives k db' w := by
  obtain ⟨t, ht, rfl, hw⟩ := h
  refine ⟨{ t with db := db' }, ht.tail (a := .store (.advance c)) ?_, rfl, hw⟩
  show t.step (.store (.advance c)) = _
  simp [step, Database.onItsOwn, hstep]

theorem advances {c n : ℕ} (h : s.Arrives k db w)
    (hrun : run Database.step db (List.replicate n (.advance c)) = some db') :
    s.Arrives k db' w := by
  induction n generalizing db with
  | zero =>
    obtain rfl := Option.some.inj hrun
    exact h
  | succ n ih =>
    obtain ⟨mid, hmid, hrest⟩ := run_cons_eq_some.mp hrun
    exact ih (h.advance hmid) hrest

theorem worker_fits {a : WorkerAct} (h : s.Arrives k db w) (hstep : w.step a = some w')
    (hdb : db.exchange w a = some db')
    (hfits : a.sendsClaim = false ∨ LeaseFits db.clock w.config.lease) :
    s.Arrives k db' w' := by
  obtain ⟨t, ht, rfl, hw⟩ := h
  have ha : t.stepAlone (.worker k a) =
      some ⟨db', t.workers.set k w', t.done ++ w.record k a, t.sent ++ a.sending k⟩ := by
    have hlease : t.leaseFits (.worker k a) = true := by simpa [leaseFits, hw] using hfits
    rw [stepAlone, hlease]
    show t.step (.worker k a) = _
    simp [step, hw, hstep, hdb]
  exact ⟨_, ht.tail ha, rfl, List.getElem?_set_self (List.getElem?_eq_some_iff.mp hw).1⟩

theorem worker {a : WorkerAct} (h : s.Arrives k db w) (hstep : w.step a = some w')
    (hdb : db.exchange w a = some db') (ha : a.sendsClaim = false) : s.Arrives k db' w' :=
  h.worker_fits hstep hdb (.inl ha)

end Arrives

theorem settles (hapi : s.db.FromApi) :
    ∃ s', Reaches stepAlone s s' ∧ s'.workers = s.workers ∧ s'.db.events = s.db.events ∧
      s'.db.clock = s.db.clock ∧ s'.db.Quiet := by
  have key : ∃ s', Reaches stepAlone s s' ∧ (s'.workers = s.workers ∧
      s'.db.events = s.db.events ∧ s'.db.clock = s.db.clock ∧ s'.db.FromApi) ∧ s'.db.Settled := by
    refine Reaches.variant (P := fun t : System => t.workers = s.workers ∧
      t.db.events = s.db.events ∧ t.db.clock = s.db.clock ∧ t.db.FromApi)
      (μ := fun t : System => t.db.calls.countP Call.isRunning) ?_ ⟨rfl, rfl, rfl, hapi⟩
    rintro t ⟨hworkers, hevents, hclock, hapi'⟩ hopen
    obtain ⟨c, call, hc, hrun⟩ := Database.not_settled hopen
    obtain ⟨call', hdrop, hover, hreq⟩ := Database.drop_running hc hrun
    have hstep : t.stepAlone (.store (.signal c .drop)) =
        some { t with db := t.db.setCall c call' } := by
      show t.step (.store (.signal c .drop)) = _
      simp [step, Database.onItsOwn, hdrop]
    exact ⟨_, .single hstep, ⟨hworkers, hevents, hclock, hapi'.setCall hc hreq⟩,
      Database.countP_setCall hc hrun hover⟩
  obtain ⟨s', hreach, ⟨hworkers, hevents, hclock, hapi'⟩, hsettled⟩ := key
  exact ⟨s', hreach, hworkers, hevents, hclock, hsettled, hapi'⟩

/-! ## A task from its start to its end -/

theorem setStage_setStage (w : Worker) (t : Task) (a b : TaskStage) :
    (w.setStage t a).setStage { t with stage := a } b = w.setStage t b := by
  have hput : Table.put Task.id [{ t with stage := b }]
      (Table.put Task.id [{ t with stage := a }] w.tasks) =
        Table.put Task.id [{ t with stage := b }] w.tasks := Table.put_put rfl
  exact congrArg (fun tasks => { w with tasks := tasks }) hput

theorem reply_committed {c : ℕ} {args : CompleteArgs} {b : Bool}
    (hc : db.calls[c]? = some (.complete args (.committed b))) :
    db.step (.signal c .reply) = some (db.setCall c (.complete args (.returned b))) := by
  simp [Database.step, hc, Call.signal, Progress.signal]

/-- **A task on its own.** The processor succeeds and the completion is answered with `true`. -/
theorem Arrives.complete_task (h : s.Arrives k db w) (hs : s.Reachable) (hlive : w.isLive = true)
    {i : ℕ} {t : Task} (ht : w.task i = some t) (hstage : t.stage = .processing)
    (hquiet : db.Quiet) {r : Row} (hr : r ∈ db.events) (hid : r.eventId = t.claim.event.id)
    (howned : r.OwnedBy w.owner) :
    ∃ db', s.Arrives k db' { w.setStage t .finished with processed := w.processed + 1 } ∧
      db'.Quiet ∧ db'.clock = db.clock ∧
      db'.events = Table.put (·.eventId) [r.completed db.clock] db.events := by
  obtain ⟨db₁, hbegin, hrest⟩ := run_cons_eq_some.mp
    (Database.run_complete (h.reachable hs) hr howned (hquiet.settled.unlocked _))
  have halive : ∀ stage, (w.setStage t stage).isLive = true := fun _ => hlive
  have hprocess : w.step (.processReturned i true) = some (w.setStage t .processed) := by
    rw [Worker.step_task hlive rfl ht]
    simp [Worker.stepTask, hstage]
  have hsend : (w.setStage t .processed).step (.completeSent i db.calls.length) =
      some (w.setStage t (.completing db.calls.length)) := by
    rw [Worker.step_task (halive _) rfl (Worker.task_setStage ht _)]
    simp [Worker.stepTask, setStage_setStage]
  have hbegins : db.exchange (w.setStage t .processed) (.completeSent i db.calls.length) =
      some db₁ := by
    rw [← hbegin, hid]
    simp [Database.exchange, Worker.task_setStage ht]
    rfl
  have hlast : (db.afterComplete r w.owner).calls[db.calls.length]? =
      some (.complete ⟨t.claim.event.id, w.owner⟩ (.committed true)) := by
    simp [Database.afterComplete, hid]
  have hreturn : (w.setStage t (.completing db.calls.length)).step
      (.completeReturned i (.ok true)) =
        some { w.setStage t .finished with processed := w.processed + 1 } := by
    rw [Worker.step_task (halive _) rfl (Worker.task_setStage ht _)]
    simp only [Worker.stepTask, Worker.countCompletion, setStage_setStage]
    rfl
  have hreply : (db.afterComplete r w.owner).exchange
      (w.setStage t (.completing db.calls.length)) (.completeReturned i (.ok true)) =
        some ((db.afterComplete r w.owner).setCall db.calls.length
          (.complete ⟨t.claim.event.id, w.owner⟩ (.returned true))) := by
    rw [← reply_committed hlast]
    simp only [Database.exchange, Worker.task_setStage ht, Option.bind_eq_bind, Option.bind_some]
    exact if_pos hlast
  have hcalls : ((db.afterComplete r w.owner).setCall db.calls.length
      (.complete ⟨t.claim.event.id, w.owner⟩ (.returned true))).calls =
        db.calls ++ [.complete ⟨t.claim.event.id, w.owner⟩ (.returned true)] := by
    simp [Database.setCall, Database.afterComplete]
  have hsent := (h.worker hprocess rfl rfl).worker hsend hbegins rfl
  exact ⟨_, (hsent.advances hrest).worker hreturn hreply rfl, hquiet.append (by simp) rfl hcalls,
    rfl, rfl⟩

/-! ## The invariant of the recovery -/

/-- How the recovery stands that began with the table of `db₀`: the worker `w` is alone, and what is
open is held by it, or is as it was. -/
structure Recovering (db₀ : Database) (owner : WorkerId) (config : WorkerRuntimeConfig)
    (db : Database) (w : Worker) : Prop where
  quiet : db.Quiet
  clock : db.clock = db₀.clock
  content : db.events.map Row.toContent = db₀.events.map Row.toContent
  custody : ∀ r₀ ∈ db₀.events, ∀ r ∈ db.events, r.eventId = r₀.eventId → Custody owner w.held r₀ r
  distinct : w.held.Nodup
  count : w.processed + db.openEvents = db₀.openEvents
  owner : w.owner = owner
  config : w.config = config
  phase : w.phase = .joining ∨ w.phase = .selecting ∨ ∃ claims, w.phase = .spawning claims
  finished : ∀ t ∈ w.tasks, t.stage = .finished
  clean : w.failed = 0 ∧ w.lostClaims = 0

/-- A row has to be claimed and completed, or only to be completed. -/
def weight (held : List EventId) (r : Row) : ℕ :=
  if r.status = .processed then 0 else if r.eventId ∈ held then 1 else 2

def phaseToGo (w : Worker) : ℕ :=
  match w.phase with
  | .spawning _ => 2
  | .selecting => 1
  | _ => 0

/-- What is left to do. A completed row leaves a task to be joined, hence the factor. -/
def toGo (db : Database) (w : Worker) : ℕ :=
  3 * (db.events.map (weight w.held)).sum + w.tasks.length + phaseToGo w

theorem weight_le (held : List EventId) (r : Row) : weight held r ≤ weight [] r := by
  unfold weight
  split_ifs <;> simp_all

section Moves

variable {db₀ : Database} {owner : WorkerId} {config : WorkerRuntimeConfig}

namespace Recovering

theorem origin (h : Recovering db₀ owner config db w) {r : Row} (hr : r ∈ db.events) :
    ∃ r₀ ∈ db₀.events, r.toContent = r₀.toContent ∧ Custody owner w.held r₀ r := by
  have hmem : r.toContent ∈ db₀.events.map Row.toContent := h.content ▸ List.mem_map_of_mem hr
  obtain ⟨r₀, hr₀, hsame⟩ := List.mem_map.mp hmem
  exact ⟨r₀, hr₀, hsame.symm, h.custody r₀ hr₀ r hr (congrArg Content.eventId hsame.symm)⟩

theorem live (h : Recovering db₀ owner config db w) : w.isLive = true := by
  rcases h.phase with hphase | hphase | ⟨claims, hphase⟩ <;> simp [Worker.isLive, hphase]

theorem local_step (h : Recovering db₀ owner config db w) {w' : Worker} (hheld : w'.held = w.held)
    (howner : w'.owner = w.owner) (hconfig : w'.config = w.config)
    (hphase : w'.phase = .joining ∨ w'.phase = .selecting) (htasks : ∀ t ∈ w'.tasks, t ∈ w.tasks)
    (hprocessed : w'.processed = w.processed) (hfailed : w'.failed = w.failed)
    (hlost : w'.lostClaims = w.lostClaims) : Recovering db₀ owner config db w' where
  quiet := h.quiet
  clock := h.clock
  content := h.content
  custody := hheld ▸ h.custody
  distinct := hheld ▸ h.distinct
  count := hprocessed ▸ h.count
  owner := howner.trans h.owner
  config := hconfig.trans h.config
  phase := hphase.imp_right .inl
  finished t ht := h.finished t (htasks t ht)
  clean := ⟨hfailed.trans h.clean.1, hlost.trans h.clean.2⟩

end Recovering

theorem held_of_phase {claims : List (ClaimedEvent (Json Token))} (h : w.phase = .spawning claims) :
    w.held = claims.map (·.event.id) := by
  rw [Worker.held, Worker.pending_of_phase h]

theorem held_eq_nil (h : w.phase = .joining ∨ w.phase = .selecting) : w.held = [] := by
  rcases h with h | h <;> simp [Worker.held, Worker.pending, h]

theorem Recovering.spawnDone_move (h : Recovering db₀ owner config db w)
    (harr : s.Arrives k db w) (hphase : w.phase = .spawning []) :
    s.Arrives k db { w with phase := .selecting } ∧
      Recovering db₀ owner config db { w with phase := .selecting } ∧
      toGo db { w with phase := .selecting } < toGo db w := by
  have hstep : w.step .spawnDone = some { w with phase := .selecting } := by
    rw [Worker.step_loop h.live rfl]
    simp [Worker.stepLoop, hphase]
  have hheld : ({ w with phase := .selecting } : Worker).held = w.held := by
    rw [held_of_phase hphase]
    rfl
  refine ⟨harr.worker hstep rfl rfl,
    h.local_step hheld rfl rfl (.inr rfl) (fun t ht => ht) rfl rfl rfl, ?_⟩
  unfold toGo
  rw [hheld]
  simp [phaseToGo, hphase]

theorem Recovering.poll_move (h : Recovering db₀ owner config db w) (harr : s.Arrives k db w)
    (hslots : 0 < config.concurrency) (hphase : w.phase = .selecting) (htasks : w.tasks = []) :
    s.Arrives k db { w with phase := .joining } ∧
      Recovering db₀ owner config db { w with phase := .joining } ∧
      toGo db { w with phase := .joining } < toGo db w := by
  have hstep : w.step .poll = some { w with phase := .joining } := by
    rw [Worker.step_loop h.live rfl]
    simp [Worker.stepLoop, hphase, htasks, h.config, hslots]
  have hheld : ({ w with phase := .joining } : Worker).held = w.held := by
    rw [held_eq_nil (.inr hphase)]
    rfl
  refine ⟨harr.worker hstep rfl rfl,
    h.local_step hheld rfl rfl (.inl rfl) (fun t ht => ht) rfl rfl rfl, ?_⟩
  unfold toGo
  rw [hheld]
  simp [phaseToGo, hphase]

theorem Recovering.join_move (h : Recovering db₀ owner config db w) (harr : s.Arrives k db w)
    (hphase : w.phase = .joining ∨ w.phase = .selecting) {t : Task} {ts : List Task}
    (htasks : w.tasks = t :: ts) :
    ∃ w', s.Arrives k db w' ∧ Recovering db₀ owner config db w' ∧ toGo db w' < toGo db w := by
  have hstage : t.stage = .finished := h.finished t (htasks ▸ List.mem_cons_self)
  have htask : w.task t.id = some t := by
    simp [Worker.task, Table.lookup, htasks]
  have hstep : w.step (.joined t.id) = some { w.recordJoin t with phase := .joining } := by
    rw [Worker.step_task h.live rfl htask]
    rcases hphase with hp | hp <;>
      simp [Worker.stepTask, Task.isOver, hstage, Worker.join, hp, Worker.recordJoin,
        Worker.removeTask]
  have hheld : ({ w.recordJoin t with phase := .joining } : Worker).held = w.held := by
    rw [held_eq_nil hphase]
    rfl
  refine ⟨_, harr.worker hstep rfl rfl, h.local_step hheld rfl rfl (.inl rfl)
    (fun t' ht' => (Worker.mem_removeTask ht').1) rfl ?_ rfl, ?_⟩
  · simp [Worker.recordJoin, hstage]
  · have hlength : (w.removeTask t).tasks.length < w.tasks.length := by
      rw [Worker.removeTask, htasks]
      exact (List.length_filter_lt_length_iff_exists.mpr ⟨t, List.mem_cons_self, by simp⟩)
    unfold toGo
    rw [hheld]
    show 3 * _ + (w.removeTask t).tasks.length + 0 < _
    omega

theorem openEvents_completed (hids : (db.events.map (·.eventId)).Nodup) {r : Row}
    (hr : r ∈ db.events) (hopen : r.status ≠ .processed) {now : Timestamp}
    (hevents : db'.events = Table.put (·.eventId) [r.completed now] db.events) :
    db'.openEvents + 1 = db.openEvents := by
  have hsum : ∀ f : Row → ℕ, ((Table.put (·.eventId) [r.completed now] db.events).map f).sum +
      f r = (db.events.map f).sum + f (r.completed now) :=
    fun f => Table.sum_map_put_one hids hr rfl
  specialize hsum fun r => if decide (r.status ≠ .processed) then 1 else 0
  rw [if_pos (by simpa using hopen), if_neg (by simp [Row.completed])] at hsum
  simp only [Database.openEvents, Table.countP_eq_sum, hevents]
  omega

section Completed

variable {x : ClaimedEvent (Json Token)} {xs : List (ClaimedEvent (Json Token))} {r : Row}
  (h : Recovering db₀ owner config db w) (hids : (db.events.map (·.eventId)).Nodup)
  (hphase : w.phase = .spawning (x :: xs)) (hr : r ∈ db.events) (hid : r.eventId = x.event.id)
  (hevents : db'.events = Table.put (·.eventId) [r.completed db.clock] db.events)

include hphase hid in
theorem held_head : r.eventId ∈ w.held := by
  rw [held_of_phase hphase, hid]
  exact List.mem_cons_self

include h hids hphase hr hid hevents

theorem Recovering.completed (hquiet : db'.Quiet) (hclock : db'.clock = db.clock)
    (hphase' : w'.phase = .spawning xs) (howner : w'.owner = w.owner)
    (hconfig : w'.config = w.config) (hprocessed : w'.processed = w.processed + 1)
    (hfinished : ∀ t ∈ w'.tasks, t.stage = .finished) (hfailed : w'.failed = w.failed)
    (hlost : w'.lostClaims = w.lostClaims) : Recovering db₀ owner config db' w' := by
  have hheld : w.held = x.event.id :: xs.map (·.event.id) := held_of_phase hphase
  obtain ⟨hfresh, hdistinct⟩ := List.nodup_cons.mp (hheld ▸ h.distinct)
  have hmine := held_head hphase hid
  have howned : r.OwnedBy owner := by
    obtain ⟨r₀, -, -, hc⟩ := h.origin hr
    exact (hc.owned hmine).2.1
  refine ⟨hquiet, hclock.trans h.clock, ?_, ?_, ?_, ?_, howner.trans h.owner,
    hconfig.trans h.config, .inr (.inr ⟨xs, hphase'⟩), hfinished,
    hfailed.trans h.clean.1, hlost.trans h.clean.2⟩
  · rw [hevents, Table.map_put, h.content]
    intro n hn q hq hkey
    obtain rfl := List.mem_singleton.mp hn
    rw [List.inj_on_of_nodup_map hids hq hr hkey.symm]
    rfl
  · intro r₀ hr₀ r' hr' hid'
    rw [held_of_phase hphase']
    rw [hevents] at hr'
    obtain ⟨q, hq, hqid, hnew | ⟨rfl, hother⟩⟩ := Table.mem_put hr'
    · obtain rfl := List.mem_singleton.mp hnew
      obtain ⟨hopen₀, -, hn⟩ := (h.custody r₀ hr₀ r hr hid').owned hmine
      exact .finished hopen₀ rfl (hid ▸ hfresh : r.eventId ∉ _) hn
    · have hne : r'.eventId ≠ x.event.id := fun heq =>
        hother _ (List.mem_singleton.mpr rfl) (hid.trans heq.symm)
      refine (h.custody r₀ hr₀ r' hq hid').of_ne ?_
      rw [hheld, List.mem_cons, or_iff_right hne]
  · rw [held_of_phase hphase']
    exact hdistinct
  · have hopen := openEvents_completed hids hr (by rw [howned.1]; decide) hevents
    have hcount := h.count
    omega

theorem Recovering.weight_completed :
    (db'.events.map (weight (xs.map (·.event.id)))).sum <
      (db.events.map (weight w.held)).sum := by
  rw [hevents]
  refine Table.sum_map_put_lt ?_ ?_ ⟨_, List.mem_singleton.mpr rfl, r, hr, rfl⟩
  · intro n hn q hq hkey
    obtain rfl := List.mem_singleton.mp hn
    obtain rfl := List.inj_on_of_nodup_map hids hq hr hkey.symm
    have hmine := held_head hphase hid
    obtain ⟨r₀, -, -, hc⟩ := h.origin hq
    simp [weight, Row.completed, (hc.owned hmine).2.1.1, hmine]
  · intro q hq hother
    have hne : q.eventId ≠ x.event.id := fun heq =>
      hother _ (List.mem_singleton.mpr rfl) (hid.trans heq.symm)
    simp [weight, held_of_phase hphase, hne]

end Completed

theorem Recovering.spawn_move (h : Recovering db₀ owner config db w) (hs : s.Reachable)
    (harr : s.Arrives k db w) {x : ClaimedEvent (Json Token)}
    {xs : List (ClaimedEvent (Json Token))} (hphase : w.phase = .spawning (x :: xs)) :
    ∃ db' w', s.Arrives k db' w' ∧ Recovering db₀ owner config db' w' ∧
      toGo db' w' < toGo db w := by
  have hids := (harr.reachable hs).sound.ids
  have hspawn : w.step .spawned = some { w.spawn x with phase := .spawning xs } := by
    rw [Worker.step_loop h.live rfl]
    simp [Worker.stepLoop, hphase]
  have harr₁ := harr.worker hspawn rfl rfl
  have hmem : (⟨w.nextTask, x, .processing⟩ : Task) ∈
      ({ w.spawn x with phase := .spawning xs } : Worker).tasks :=
    List.mem_append_right _ (List.mem_singleton.mpr rfl)
  have htask : ({ w.spawn x with phase := .spawning xs } : Worker).task w.nextTask =
      some ⟨w.nextTask, x, .processing⟩ := Table.lookup_of_mem (harr₁.numbered hs).nodup hmem
  obtain ⟨r, hr, hid⟩ := harr₁.task_row hs hmem
  obtain ⟨r₀, -, -, hcustody⟩ := h.origin hr
  obtain ⟨-, howned, -⟩ := hcustody.owned (held_head hphase hid)
  obtain ⟨db', harr', hquiet, hclock, hevents⟩ := harr₁.complete_task hs rfl htask rfl h.quiet hr
    hid (h.owner ▸ howned)
  refine ⟨db', _, harr', h.completed hids hphase hr hid hevents hquiet hclock rfl rfl rfl rfl ?_
    rfl rfl, ?_⟩
  · intro t ht
    obtain ⟨t₀, ht₀, hkey, hnew | ⟨rfl, hother⟩⟩ := Table.mem_put ht
    · rw [List.mem_singleton.mp hnew]
    · rcases List.mem_append.mp ht₀ with hold | hlast
      · exact h.finished t hold
      · exact absurd (List.mem_singleton.mp hlast ▸ rfl) (hother _ (List.mem_singleton.mpr rfl))
  · have hlt := h.weight_completed hids hphase hr hid hevents
    have hpause : phaseToGo w = 2 := by simp [phaseToGo, hphase]
    unfold toGo
    show 3 * (db'.events.map (weight (xs.map (·.event.id)))).sum +
      (Worker.setStage _ _ _).tasks.length + 2 < _
    rw [Worker.setStage_length, hpause]
    show _ + (w.tasks ++ [_]).length + 2 < _
    rw [List.length_append, List.length_singleton]
    omega

/-! ### A round of claims -/

theorem reply_claim {c : ℕ} {args : ClaimArgs} {grants : List Grant}
    (hc : db.calls[c]? = some (.claim args (.committed grants))) :
    db.step (.signal c .reply) = some (db.setCall c (.claim args (.returned grants))) := by
  simp [Database.step, hc, Call.signal, Progress.signal]

/-- **A claim of the worker.** It is answered with the rows that a claim alone takes. -/
theorem Arrives.claim (h : s.Arrives k db w) (hs : s.Reachable) (hphase : w.phase = .joining)
    (hfree : 0 < w.free) (hquiet : db.Quiet)
    (hroom : ∀ r ∈ db.events, r.status ≠ .processed → r.deliveryAttempts < integerMax)
    (hread : ∀ r ∈ db.events, r.status ≠ .processed → r.payload.Readable)
    (hfits : LeaseFits db.clock w.config.lease) :
    ∃ (db' : Database) (claims : List (ClaimedEvent (Json Token))) (taken : List Row),
      s.Arrives k db' { w with databaseAvailable := true, phase := .spawning claims } ∧
      db'.Quiet ∧ db'.clock = db.clock ∧
      taken = db.takenRows ⟨w.owner, w.free, w.config.lease⟩ ∧
      claims.map (·.event.id) = taken.map (·.eventId) ∧
      db'.events = Table.put (·.eventId)
        (taken.map fun r => r.claimed w.owner db.clock w.config.lease) db.events := by
  let args : ClaimArgs := ⟨w.owner, w.free, w.config.lease⟩
  have hreach := h.reachable hs
  have hroom' : ∀ r ∈ db.takenRows args, r.deliveryAttempts < integerMax := by
    intro r hr
    obtain ⟨hmem, hclaim⟩ := Database.mem_takenRows hr
    exact hroom r hmem hclaim.not_processed
  obtain ⟨n, hrun⟩ := Database.run_claim_taken hreach hroom' (show args.limit ≠ 0 from hfree.ne')
  obtain ⟨db₁, hbegin, hrest⟩ := run_cons_eq_some.mp hrun
  have hcommitted : (db.afterClaim args).Reachable := by
    obtain ⟨clock, hdb⟩ := hreach
    exact ⟨clock, hdb.trans ⟨_, hrun⟩⟩
  have hlast : (db.afterClaim args).calls[db.calls.length]? = some (.claim args
      (.committed ((db.takenRows args).map (args.grant db.clock)))) := by
    simp [Database.afterClaim]
  have hapi : (db.afterClaim args).FromApi := hquiet.fromApi.append (by simp) rfl
  have hgrants : ∀ g ∈ (db.takenRows args).map (args.grant db.clock), g.row.payload.Readable := by
    refine List.forall_mem_map.mpr fun r hr => ?_
    obtain ⟨hmem, hclaim⟩ := Database.mem_takenRows hr
    exact hread r hmem hclaim.not_processed
  obtain ⟨claims, hdecode, hids⟩ := hcommitted.mapM_decode_ok hapi hlast rfl
  have hclaims := (decodeClaims_of_readable hgrants).trans hdecode
  have hlive : w.isLive = true := by simp [Worker.isLive, hphase]
  have hsend : w.step (.claimSent db.calls.length) =
      some { w with phase := .claiming db.calls.length } := by
    rw [Worker.step_loop hlive rfl]
    simp [Worker.stepLoop, hphase, hfree]
  have hbegins : db.exchange w (.claimSent db.calls.length) = some db₁ := by
    rw [← hbegin]
    simp [Database.exchange, args]
  have hreturn : ({ w with phase := .claiming db.calls.length } : Worker).step
      (.claimReturned (.ok claims)) =
        some { w with databaseAvailable := true, phase := .spawning claims } := rfl
  have hreply : (db.afterClaim args).exchange { w with phase := .claiming db.calls.length }
      (.claimReturned (.ok claims)) = some ((db.afterClaim args).setCall db.calls.length
        (.claim args (.returned ((db.takenRows args).map (args.grant db.clock))))) := by
    rw [← reply_claim hlast]
    simp only [Database.exchange, hlast]
    exact if_pos hclaims
  have hcalls : ((db.afterClaim args).setCall db.calls.length
      (.claim args (.returned ((db.takenRows args).map (args.grant db.clock))))).calls =
        db.calls ++ [.claim args (.returned ((db.takenRows args).map (args.grant db.clock)))] := by
    simp [Database.setCall, Database.afterClaim]
  have hsent := h.worker_fits hsend hbegins (.inr hfits)
  refine ⟨_, claims, _, (hsent.advances hrest).worker hreturn hreply rfl,
    hquiet.append (by simp) rfl hcalls, rfl, rfl, ?_, rfl⟩
  rw [hids, List.map_map]
  rfl

theorem openEvents_eq_zero : db.openEvents = 0 ↔ ∀ r ∈ db.events, r.status = .processed := by
  simp [Database.openEvents, List.countP_eq_zero]

theorem takenRows_eq_nil {args : ClaimArgs} (hlimit : args.limit ≠ 0) (hquiet : db.Quiet)
    (hready : ∀ r ∈ db.events, r.status ≠ .processed → r.Claimable db.clock) :
    db.takenRows args = [] ↔ db.openEvents = 0 := by
  rw [openEvents_eq_zero]
  constructor
  · intro hnil r hr
    by_contra hopen
    have hcand : r ∈ (db.candidateRows db.clock).filter fun r => !db.lockedBySome r.eventId :=
      List.mem_filter.mpr ⟨Database.mem_candidateRows.mpr ⟨hr, hready r hr hopen⟩,
        by simp [hquiet.settled.unlocked]⟩
    rcases List.take_eq_nil_iff.mp hnil with hzero | hempty
    · simp only [ClaimArgs.sqlLimit] at hzero
      omega
    · rw [hempty] at hcand
      cases hcand
  · intro hdone
    refine List.eq_nil_iff_forall_not_mem.mpr fun r hr => ?_
    obtain ⟨hmem, hclaim⟩ := Database.mem_takenRows hr
    exact hclaim.not_processed (hdone r hmem)

section Claimed

variable {taken : List Row} {claims : List (ClaimedEvent (Json Token))} {lease : ℕ}
  (h : Recovering db₀ owner config db w) (hids : (db.events.map (·.eventId)).Nodup)
  (hphase : w.phase = .joining)
  (htaken : ∀ r ∈ taken, r ∈ db.events ∧ r.status ≠ .processed)
  (hclaims : claims.map (·.event.id) = taken.map (·.eventId))
  (hevents : db'.events = Table.put (·.eventId)
    (taken.map fun r => r.claimed owner db.clock lease) db.events)

include h hids hphase htaken hclaims hevents

theorem Recovering.claimed (hdistinct : (taken.map (·.eventId)).Nodup) (hquiet : db'.Quiet)
    (hclock : db'.clock = db.clock) :
    Recovering db₀ owner config db'
      { w with databaseAvailable := true, phase := .spawning claims } := by
  have hheld : w.held = [] := held_eq_nil (.inl hphase)
  have hheld' : ({ w with databaseAvailable := true, phase := .spawning claims } : Worker).held =
      taken.map (·.eventId) := hclaims
  -- a new version is that of a row of the table
  have hrow : ∀ n ∈ taken.map (fun r => r.claimed owner db.clock lease), ∀ q ∈ db.events,
      n.eventId = q.eventId → q ∈ taken ∧ n = q.claimed owner db.clock lease := by
    intro n hn q hq hkey
    obtain ⟨r, hr, rfl⟩ := List.mem_map.mp hn
    obtain rfl := List.inj_on_of_nodup_map hids hq (htaken r hr).1 hkey.symm
    exact ⟨hr, rfl⟩
  refine ⟨hquiet, hclock.trans h.clock, ?_, ?_, ?_, ?_, h.owner, h.config,
    .inr (.inr ⟨claims, rfl⟩), h.finished, h.clean⟩
  · rw [hevents, Table.map_put, h.content]
    intro n hn q hq hkey
    rw [(hrow n hn q hq hkey).2]
    rfl
  · intro r₀ hr₀ r' hr' hid'
    rw [hheld']
    rw [hevents] at hr'
    obtain ⟨q, hq, hqid, hnew | ⟨rfl, hother⟩⟩ := Table.mem_put hr'
    · obtain ⟨hmem, rfl⟩ := hrow r' hnew q hq hqid.symm
      have hopen := (htaken q hmem).2
      obtain rfl := (h.custody r₀ hr₀ q hq hid').untouched (by simp [hheld]) hopen
      have hid : q.eventId ∈ taken.map (·.eventId) := List.mem_map_of_mem hmem
      exact .held hopen ⟨rfl, rfl⟩ hid rfl
    · refine (h.custody r₀ hr₀ r' hq hid').of_ne ?_
      rw [hheld]
      refine iff_of_false (fun hmem => ?_) List.not_mem_nil
      obtain ⟨r, hr, hkey⟩ := List.mem_map.mp hmem
      exact hother _ (List.mem_map_of_mem hr) hkey
  · rw [hheld']
    exact hdistinct
  · have hsame : db'.openEvents = db.openEvents := by
      simp only [Database.openEvents, Table.countP_eq_sum, hevents]
      rw [Table.map_put]
      intro n hn q hq hkey
      obtain ⟨hmem, rfl⟩ := hrow n hn q hq hkey
      simp [Row.claimed, (htaken q hmem).2]
    rw [hsame]
    exact h.count

omit h in
theorem weight_claimed (hsome : taken ≠ []) :
    (db'.events.map (weight (claims.map (·.event.id)))).sum <
      (db.events.map (weight w.held)).sum := by
  rw [hevents, held_eq_nil (.inl hphase), hclaims]
  refine Table.sum_map_put_lt ?_ (fun q _ _ => weight_le _ q) ?_
  · intro n hn q hq hkey
    obtain ⟨r, hr, rfl⟩ := List.mem_map.mp hn
    obtain rfl := List.inj_on_of_nodup_map hids hq (htaken r hr).1 hkey.symm
    have hmem : (q.claimed owner db.clock lease).eventId ∈ taken.map (·.eventId) :=
      List.mem_map.mpr ⟨q, hr, rfl⟩
    have hnew : weight (taken.map (·.eventId)) (q.claimed owner db.clock lease) = 1 := by
      unfold weight
      rw [if_neg (by simp [Row.claimed]), if_pos hmem]
    rw [hnew]
    simp [weight, (htaken q hr).2]
  · obtain ⟨r, hr⟩ := List.exists_mem_of_ne_nil taken hsome
    exact ⟨_, List.mem_map_of_mem hr, r, (htaken r hr).1, rfl⟩

end Claimed

theorem Recovering.claim_move (h : Recovering db₀ owner config db w) (hs : s.Reachable)
    (harr : s.Arrives k db w) (hslots : 0 < config.concurrency)
    (hfits : LeaseFits db₀.clock config.lease)
    (hready : ∀ r ∈ db₀.events, r.status ≠ .processed →
      r.Claimable db₀.clock ∧ r.deliveryAttempts < integerMax ∧ r.payload.Readable)
    (hphase : w.phase = .joining) (htasks : w.tasks = []) :
    ∃ (db' : Database) (claims : List (ClaimedEvent (Json Token))),
      s.Arrives k db' { w with databaseAvailable := true, phase := .spawning claims } ∧
      Recovering db₀ owner config db'
        { w with databaseAvailable := true, phase := .spawning claims } ∧
      (claims = [] ↔ db.openEvents = 0) ∧
      (claims ≠ [] → toGo db' { w with databaseAvailable := true, phase := .spawning claims } <
        toGo db w) := by
  have hids := (harr.reachable hs).sound.ids
  -- what is open has not been touched
  have hopen : ∀ r ∈ db.events, r.status ≠ .processed →
      r.Claimable db.clock ∧ r.deliveryAttempts < integerMax ∧ r.payload.Readable := by
    intro r hr hstatus
    obtain ⟨r₀, hr₀, -, hc⟩ := h.origin hr
    obtain rfl := hc.untouched (by simp [held_eq_nil (.inl hphase)]) hstatus
    rw [h.clock]
    exact hready r hr₀ hstatus
  have hfree : 0 < w.free := by
    simpa [Worker.free, htasks, h.config] using hslots
  obtain ⟨db', claims, taken, harr', hquiet, hclock, htaken, hclaims, hevents⟩ :=
    harr.claim hs hphase hfree h.quiet (fun r hr hstatus => (hopen r hr hstatus).2.1)
      (fun r hr hstatus => (hopen r hr hstatus).2.2) (by rwa [h.clock, h.config])
  have hmem : ∀ r ∈ taken, r ∈ db.events ∧ r.status ≠ .processed := by
    intro r hr
    obtain ⟨hmem, hclaim⟩ := Database.mem_takenRows (htaken ▸ hr)
    exact ⟨hmem, hclaim.not_processed⟩
  have hdistinct : (taken.map (·.eventId)).Nodup := by
    have hsub : taken.Sublist (db.candidateRows db.clock) :=
      htaken ▸ (List.take_sublist _ _).trans List.filter_sublist
    exact (Database.candidates_nodup (harr.reachable hs).sound db.clock).sublist (hsub.map _)
  rw [h.owner] at hevents
  have hnil : claims = [] ↔ taken = [] := by
    rw [← List.map_eq_nil_iff, hclaims, List.map_eq_nil_iff]
  refine ⟨db', claims, harr', h.claimed hids hphase hmem hclaims hevents hdistinct hquiet hclock,
    ?_, fun hsome => ?_⟩
  · rw [hnil, htaken]
    exact takenRows_eq_nil hfree.ne' h.quiet fun r hr hstatus => (hopen r hr hstatus).1
  · have hlt := weight_claimed hids hphase hmem hclaims hevents (hnil.not.mp hsome)
    have hpause : phaseToGo w = 0 := by simp [phaseToGo, hphase]
    unfold toGo
    rw [hpause]
    show 3 * (db'.events.map (weight (claims.map (·.event.id)))).sum + w.tasks.length + 2 < _
    omega

end Moves

/-! ## The recovery -/

section Recovery

variable {db₀ : Database} {owner : WorkerId} {config : WorkerRuntimeConfig}
  (hslots : 0 < config.concurrency) (hfits : LeaseFits db₀.clock config.lease)
  (hready : ∀ r ∈ db₀.events, r.status ≠ .processed →
    r.Claimable db₀.clock ∧ r.deliveryAttempts < integerMax ∧ r.payload.Readable)

include hslots hfits hready

theorem Recovering.move (h : Recovering db₀ owner config db w) (hs : s.Reachable)
    (harr : s.Arrives k db w)
    (hgoing : ¬ (w.phase = .joining ∧ w.tasks = [] ∧ db.openEvents = 0)) :
    ∃ db' w', s.Arrives k db' w' ∧ Recovering db₀ owner config db' w' ∧
      toGo db' w' < toGo db w := by
  rcases h.phase with hphase | hphase | ⟨claims, hphase⟩
  · cases htasks : w.tasks with
    | nil =>
      obtain ⟨db', claims, harr', h', hnil, hlt⟩ :=
        h.claim_move hs harr hslots hfits hready hphase htasks
      have hsome : claims ≠ [] := fun heq => hgoing ⟨hphase, htasks, hnil.mp heq⟩
      exact ⟨db', _, harr', h', hlt hsome⟩
    | cons t ts =>
      obtain ⟨w', hmove⟩ := h.join_move harr (.inl hphase) htasks
      exact ⟨db, w', hmove⟩
  · cases htasks : w.tasks with
    | nil => exact ⟨db, _, h.poll_move harr hslots hphase htasks⟩
    | cons t ts =>
      obtain ⟨w', hmove⟩ := h.join_move harr (.inr hphase) htasks
      exact ⟨db, w', hmove⟩
  · cases claims with
    | nil => exact ⟨db, _, h.spawnDone_move harr hphase⟩
    | cons x xs => exact h.spawn_move hs harr hphase

theorem Recovering.ends (h : Recovering db₀ owner config db w) (hs : s.Reachable)
    (harr : s.Arrives k db w) :
    ∃ db' w', s.Arrives k db' w' ∧ Recovering db₀ owner config db' w' ∧
      w'.phase = .joining ∧ w'.tasks = [] ∧ db'.openEvents = 0 := by
  have key : ∃ q : Database × Worker, (s.Arrives k q.1 q.2 ∧
      Recovering db₀ owner config q.1 q.2) ∧
        q.2.phase = .joining ∧ q.2.tasks = [] ∧ q.1.openEvents = 0 := by
    refine variant (s := (db, w)) (μ := fun q => toGo q.1 q.2) ?_ ⟨harr, h⟩
    rintro ⟨db, w⟩ ⟨harr, h⟩ hgoing
    obtain ⟨db', w', harr', h', hlt⟩ := h.move hslots hfits hready hs harr hgoing
    exact ⟨(db', w'), ⟨harr', h'⟩, hlt⟩
  obtain ⟨⟨db', w'⟩, ⟨harr', h'⟩, hdone⟩ := key
  exact ⟨db', w', harr', h', hdone⟩

theorem Recovering.stops (h : Recovering db₀ owner config db w) (hs : s.Reachable)
    (harr : s.Arrives k db w) (hphase : w.phase = .joining) (htasks : w.tasks = [])
    (hdone : db.openEvents = 0) :
    ∃ db' w', s.Arrives k db' w' ∧ w'.owner = owner ∧ w'.config = config ∧
      w'.phase = .stopped ⟨db₀.openEvents, 0, 0, false, 0⟩ ∧ db'.clock = db₀.clock ∧
      db'.events.map Row.toContent = db₀.events.map Row.toContent ∧
      ∀ r₀ ∈ db₀.events, ∀ r ∈ db'.events, r.eventId = r₀.eventId →
        Custody owner [] r₀ r ∧ r.status = .processed := by
  obtain ⟨db', claims, harr', h', hnil, -⟩ := h.claim_move hs harr hslots hfits hready hphase htasks
  obtain rfl := hnil.mpr hdone
  have hprocessed : w.processed = db₀.openEvents := by
    have hcount := h.count
    omega
  have hopen : db'.openEvents = 0 := by
    have hcount := h'.count
    have hsame : w.processed + db'.openEvents = db₀.openEvents := hcount
    omega
  have hreport : w.report false 0 = ⟨db₀.openEvents, 0, 0, false, 0⟩ := by
    simp [Worker.report, hprocessed, h.clean]
  have hdrained : ({ w with databaseAvailable := true, phase := .draining } : Worker).step
      .drained = some { w with
        databaseAvailable := true, phase := .stopped ⟨db₀.openEvents, 0, 0, false, 0⟩ } := by
    rw [← hreport, Worker.step_loop rfl rfl]
    exact if_pos ⟨rfl, htasks⟩
  obtain ⟨hselecting, -, -⟩ := h'.spawnDone_move harr' rfl
  have hstopped := (hselecting.worker (a := .shutdown) rfl rfl rfl).worker hdrained rfl rfl
  exact ⟨db', _, hstopped, h.owner, h.config, rfl, h'.clock, h'.content, fun r₀ hr₀ r hr hid =>
    ⟨h'.custody r₀ hr₀ r hr hid, openEvents_eq_zero.mp hopen r hr⟩⟩

end Recovery

theorem Reachable.leases_end (h : s.Reachable) {now : Timestamp}
    (hleases : ∀ r ∈ s.db.events, ∀ l, r.leaseExpiresAt = some l → l ≤ now) {r : Row}
    (hr : r ∈ s.db.events) (hopen : r.status ≠ .processed) : r.Claimable now := by
  rcases claimable_later (h.db.wellFormed hr) hopen with ⟨-, hclaim⟩ | ⟨-, l, hl, hclaim⟩
  · exact hclaim now
  · exact hclaim now (hleases r hr l hl)

theorem recovering_start (h : s.Reachable) (hquiet : s.db.Quiet) (owner : WorkerId)
    (config : WorkerRuntimeConfig) : Recovering s.db owner config s.db (.start owner config) where
  quiet := hquiet
  clock := rfl
  content := rfl
  custody r₀ hr₀ r hr hid := by
    obtain rfl := h.db.sound.eq_of_id hr hr₀ hid
    exact .kept List.not_mem_nil
  distinct := List.nodup_nil
  count := Nat.zero_add _
  owner := rfl
  config := rfl
  phase := .inl rfl
  finished _ ht := (by cases ht)
  clean := ⟨rfl, rfl⟩

theorem starts (h : s.Reachable) (hapi : s.db.FromApi) {now : Timestamp} (hnow : s.db.clock ≤ now)
    (hleases : ∀ r ∈ s.db.events, ∀ l, r.leaseExpiresAt = some l → l ≤ now) (owner : WorkerId)
    {config : WorkerRuntimeConfig} (hslots : 0 < config.concurrency) :
    ∃ s', Reaches stepAlone s s' ∧ s'.db.events = s.db.events ∧ s'.db.clock = now ∧ s'.db.Quiet ∧
      (∀ r ∈ s'.db.events, r.status ≠ .processed → r.Claimable s'.db.clock) ∧
      s'.workers[s.workers.length]? = some (.start owner config) := by
  obtain ⟨s₁, hreach, hworkers, hevents, hclock, hquiet⟩ := settles hapi
  have htick : s₁.stepAlone (.store (.tick now)) =
      some { s₁ with db := { s₁.db with clock := now } } := by
    show s₁.stepForward (.store (.tick now)) = _
    rw [stepForward, if_pos (by simpa [keepsTime, hclock] using hnow)]
    rfl
  have hstart : ({ s₁ with db := { s₁.db with clock := now } } : System).stepAlone
      (.start owner config) = some { s₁ with
        db := { s₁.db with clock := now }
        workers := s₁.workers ++ [.start owner config] } := by
    show (if 0 < config.concurrency then _ else _) = _
    exact if_pos hslots
  refine ⟨_, (hreach.tail htick).tail hstart, hevents, rfl, ⟨hquiet.settled, hquiet.fromApi⟩,
    fun r hr hopen => h.leases_end hleases (hevents ▸ hr) hopen, ?_⟩
  rw [← hworkers]
  exact List.getElem?_concat_length

/-- **Recovery.** Whatever state the system is in: if every open event can be read and has not run
out of delivery attempts, a fresh worker can bring all events to `PROCESSED` at any time `now` when
the leases are over. Each event that was open is delivered once more, the others are left alone, and
when the worker is shut down it reports just the events that were open. -/
theorem recovers (h : s.Reachable) (hapi : s.db.FromApi)
    (hroom : ∀ r ∈ s.db.events, r.status ≠ .processed → r.deliveryAttempts < integerMax)
    (hread : ∀ r ∈ s.db.events, r.status ≠ .processed → r.payload.Readable) {now : Timestamp}
    (hnow : s.db.clock ≤ now)
    (hleases : ∀ r ∈ s.db.events, ∀ l, r.leaseExpiresAt = some l → l ≤ now)
    (owner : WorkerId) {config : WorkerRuntimeConfig} (hslots : 0 < config.concurrency)
    (hfits : LeaseFits now config.lease) :
    ∃ s' w, Reaches stepAlone s s' ∧ s'.db.clock = now ∧
      s'.workers[s.workers.length]? = some w ∧ w.owner = owner ∧ w.config = config ∧
      w.phase = .stopped ⟨s.db.openEvents, 0, 0, false, 0⟩ ∧
      s'.db.events.map Row.toContent = s.db.events.map Row.toContent ∧
      ∀ r ∈ s.db.events, ∀ r' ∈ s'.db.events, r'.eventId = r.eventId →
        r'.status = .processed ∧
          r'.deliveryAttempts =
            r.deliveryAttempts + (if r.status = .processed then 0 else 1) := by
  obtain ⟨s₀, hreach, hevents, rfl, hquiet, hclaimable, hw⟩ :=
    starts h hapi hnow hleases owner hslots
  have hs₀ := h.trans (reaches_of_alone hreach)
  have hready : ∀ r ∈ s₀.db.events, r.status ≠ .processed →
      r.Claimable s₀.db.clock ∧ r.deliveryAttempts < integerMax ∧ r.payload.Readable :=
    fun r hr hopen => ⟨hclaimable r hr hopen, hroom r (hevents ▸ hr) hopen,
      hread r (hevents ▸ hr) hopen⟩
  obtain ⟨db, w, harr, hrec, hphase, htasks, hdone⟩ :=
    (recovering_start hs₀ hquiet owner config).ends hslots hfits hready hs₀ (.refl hw)
  obtain ⟨db', w', ⟨s', hreach', rfl, hw'⟩, howner, hconfig, hstopped, hclock, hcontent, hfinal⟩ :=
    hrec.stops hslots hfits hready hs₀ harr hphase htasks hdone
  have hcount : s₀.db.openEvents = s.db.openEvents := by
    rw [Database.openEvents, hevents]
    rfl
  refine ⟨s', w', hreach.trans hreach', hclock, hw', howner, hconfig, hcount ▸ hstopped,
    hevents ▸ hcontent, fun r hr r' hr' hid => ?_⟩
  obtain ⟨hcustody, hprocessed⟩ := hfinal r (hevents ▸ hr) r' hr' hid
  refine ⟨hprocessed, ?_⟩
  cases hcustody with
  | kept _ => rw [if_pos hprocessed, add_zero]
  | held _ _ hmem _ => cases hmem
  | finished hopen _ _ hn => rw [if_neg hopen, hn]

end System

end PulseStream
