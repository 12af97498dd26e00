import PulseStream.Store.Completion
import PulseStream.Worker.Steps

/-!
# Workers and store together

Any number of API processes and workers over one database. A worker's action carries the store's
reply, and `exchange` makes it the reply the database gives: a claim or a completion is begun as a
new call, and its answer is that of a committed call. A worker may also see an error while its
statement goes on. Only workers claim and complete; everything else the database can do (the clock,
admissions, the progress and the failure of every call) happens on its own.
-/

namespace PulseStream

open Machine

variable {F : Type} [SerdeJson F]

/-- `processor.process` returned `Ok(())`: which worker, which task, which event. -/
structure ProcessedOk where
  worker : ℕ
  task : ℕ
  event : EventId
  deriving DecidableEq

/-- A task sent its completion as the call with the given number. -/
structure Sent where
  call : ℕ
  worker : ℕ
  task : ℕ
  deriving DecidableEq

/-- The database, the workers that were ever started, and two records that nothing reads: the
processor's successes and the completions sent. -/
structure System where
  db : Database
  workers : List Worker
  done : List ProcessedOk
  sent : List Sent
  deriving DecidableEq

/-- The database's part in a worker's action. -/
def Database.exchange (db : Database) (w : Worker) : WorkerAct → Option Database
  | .claimSent c =>
    if c = db.calls.length then db.step (.begin (.claim ⟨w.owner, w.free, w.config.lease⟩))
    else none
  | .claimReturned (.ok claims) =>
    match w.phase with
    | .claiming c =>
      match db.calls[c]? with
      | some (.claim _ (.committed grants)) =>
        if decodeClaims grants = .ok claims then db.step (.signal c .reply) else none
      | _ => none
    | _ => none
  | .completeSent i c => do
    let t ← w.task i
    if c = db.calls.length then db.step (.begin (.complete ⟨t.claim.event.id, w.owner⟩)) else none
  | .completeReturned i (.ok b) => do
    let t ← w.task i
    match t.stage with
    | .completing c =>
      if db.calls[c]? = some (.complete ⟨t.claim.event.id, w.owner⟩ (.committed b)) then
        db.step (.signal c .reply)
      else none
    | _ => none
  | _ => some db

/-- What the database does by itself: all but beginning and answering the calls of workers. -/
def Database.onItsOwn (db : Database) : Act → Bool
  | .begin (.admitEvent _) => true
  | .begin _ => false
  | .signal c .reply =>
    match db.calls[c]? with
    | some (.admitEvent _ _) => true
    | _ => false
  | _ => true

/-- The processor's success, if the action of worker `k` is one. -/
def Worker.record (w : Worker) (k : ℕ) : WorkerAct → List ProcessedOk
  | .processReturned i true => (w.task i).toList.map fun t => ⟨k, i, t.claim.event.id⟩
  | _ => []

/-- The completion sent, if the action of worker `k` is that. -/
def WorkerAct.sending (k : ℕ) : WorkerAct → List Sent
  | .completeSent i c => [⟨c, k, i⟩]
  | _ => []

inductive SystemAct where
  | store (a : Act)
  | start (owner : WorkerId) (config : WorkerRuntimeConfig)
  | worker (k : ℕ) (a : WorkerAct)

namespace System

def empty (clock : Timestamp) : System := ⟨.empty clock, [], [], []⟩

/-- One step. `run` asserts a positive concurrency before anything else. -/
def step (s : System) : SystemAct → Option System
  | .store a => if s.db.onItsOwn a then (s.db.step a).map fun db => { s with db := db } else none
  | .start owner config =>
    if 0 < config.concurrency then some { s with workers := s.workers ++ [.start owner config] }
    else none
  | .worker k a => do
    let w ← s.workers[k]?
    let w' ← w.step a
    let db ← s.db.exchange w a
    some ⟨db, s.workers.set k w', s.done ++ w.record k a, s.sent ++ a.sending k⟩

end System

/-! ## What a step can do -/

/-- The actions in which the database has no part. -/
def WorkerAct.isLocal : WorkerAct → Bool
  | .claimSent _ => false
  | .claimReturned (.ok _) => false
  | .completeSent _ _ => false
  | .completeReturned _ (.ok _) => false
  | _ => true

/-- Everything the database does in a worker's action. -/
inductive Database.Exchange (db : Database) (w : Worker) : WorkerAct → Database → Prop
  | claimSent {db' : Database}
      (h : db.step (.begin (.claim ⟨w.owner, w.free, w.config.lease⟩)) = some db') :
      Exchange db w (.claimSent db.calls.length) db'
  | claimReturned {c : ℕ} {args : ClaimArgs} {grants : List Grant}
      {claims : List (ClaimedEvent (Json Token))} {db' : Database} (hphase : w.phase = .claiming c)
      (hc : db.calls[c]? = some (.claim args (.committed grants)))
      (hclaims : decodeClaims grants = .ok claims) (h : db.step (.signal c .reply) = some db') :
      Exchange db w (.claimReturned (.ok claims)) db'
  | completeSent {i : ℕ} {t : Task} {db' : Database} (ht : w.task i = some t)
      (h : db.step (.begin (.complete ⟨t.claim.event.id, w.owner⟩)) = some db') :
      Exchange db w (.completeSent i db.calls.length) db'
  | completeReturned {i c : ℕ} {t : Task} {b : Bool} {db' : Database} (ht : w.task i = some t)
      (hstage : t.stage = .completing c)
      (hc : db.calls[c]? = some (.complete ⟨t.claim.event.id, w.owner⟩ (.committed b)))
      (h : db.step (.signal c .reply) = some db') :
      Exchange db w (.completeReturned i (.ok b)) db'
  | alone {a : WorkerAct} (ha : a.isLocal = true) : Exchange db w a db

theorem Database.exchange_spec {db db' : Database} {w : Worker} {a : WorkerAct}
    (h : db.exchange w a = some db') : db.Exchange w a db' := by
  cases a with
  | claimSent c =>
    simp only [exchange] at h
    split_ifs at h with hc
    exact hc ▸ .claimSent h
  | claimReturned result =>
    cases result with
    | error e => exact Option.some.inj h ▸ .alone rfl
    | ok claims =>
      simp only [exchange] at h
      split at h
      · rename_i c hphase
        split at h
        · rename_i hc
          split_ifs at h with hclaims
          exact .claimReturned hphase hc hclaims h
        · cases h
      · cases h
  | completeSent i c =>
    simp only [exchange, Option.bind_eq_bind, Option.bind_eq_some_iff] at h
    obtain ⟨t, ht, h⟩ := h
    split_ifs at h with hc
    exact hc ▸ .completeSent ht h
  | completeReturned i result =>
    cases result with
    | error e => exact Option.some.inj h ▸ .alone rfl
    | ok b =>
      simp only [exchange, Option.bind_eq_bind, Option.bind_eq_some_iff] at h
      obtain ⟨t, ht, h⟩ := h
      split at h
      · rename_i c hstage
        split_ifs at h with hc
        exact .completeReturned ht hstage hc h
      · cases h
  | _ => exact Option.some.inj h ▸ .alone rfl

theorem Database.Exchange.step {db db' : Database} {w : Worker} {a : WorkerAct}
    (h : db.Exchange w a db') : db' = db ∨ ∃ act, db.step act = some db' := by
  cases h with
  | alone ha => exact .inl rfl
  | claimSent h | claimReturned _ _ _ h | completeSent _ h | completeReturned _ _ _ h =>
    exact .inr ⟨_, h⟩

namespace System

variable {s s' : System} {a : SystemAct}

/-- Everything a step can do. -/
inductive Steps (s : System) : SystemAct → System → Prop
  | store {a : Act} {db : Database} (hown : s.db.onItsOwn a = true)
      (h : s.db.step a = some db) : Steps s (.store a) { s with db := db }
  | start {owner : WorkerId} {config : WorkerRuntimeConfig} (h : 0 < config.concurrency) :
      Steps s (.start owner config) { s with workers := s.workers ++ [.start owner config] }
  | worker {k : ℕ} {a : WorkerAct} {w w' : Worker} {db : Database} (hw : s.workers[k]? = some w)
      (hlive : w.isLive = true) (h : w.Steps a w') (hdb : s.db.Exchange w a db) :
      Steps s (.worker k a)
        ⟨db, s.workers.set k w', s.done ++ w.record k a, s.sent ++ a.sending k⟩

theorem step_worker {k : ℕ} {a : WorkerAct} (h : s.step (.worker k a) = some s') :
    ∃ w w' db, s.workers[k]? = some w ∧ w.step a = some w' ∧ s.db.exchange w a = some db ∧
      s' = ⟨db, s.workers.set k w', s.done ++ w.record k a, s.sent ++ a.sending k⟩ := by
  simp only [step, Option.bind_eq_bind, Option.bind_eq_some_iff, Option.some.injEq] at h
  obtain ⟨w, hw, w', hw', db, hdb, rfl⟩ := h
  exact ⟨w, w', db, hw, hw', hdb, rfl⟩

theorem step_spec (h : s.step a = some s') : Steps s a s' := by
  cases a with
  | store a =>
    simp only [step] at h
    split_ifs at h with hown
    obtain ⟨db, hdb, rfl⟩ := Option.map_eq_some_iff.mp h
    exact .store hown hdb
  | start owner config =>
    simp only [step] at h
    split_ifs at h with hpos
    exact Option.some.inj h ▸ .start hpos
  | worker k a =>
    obtain ⟨w, w', db, hw, hw', hdb, rfl⟩ := step_worker h
    exact .worker hw (Worker.step_live hw') (Worker.step_spec hw') (Database.exchange_spec hdb)

/-- `s` is reached from an empty database and no workers. -/
def Reachable (s : System) : Prop := ∃ clock, Reaches step (empty clock) s

theorem Reachable.invariant {P : System → Prop} (h : s.Reachable)
    (hempty : ∀ clock, P (empty clock))
    (hstep : ∀ t a t', t.Reachable → P t → Steps t a t' → P t') : P s := by
  obtain ⟨clock, hs⟩ := h
  exact hs.invariant (hempty clock) fun t a t' ht hP ha =>
    hstep t a t' ⟨clock, ht⟩ hP (step_spec ha)

theorem Reachable.trans (h : s.Reachable) (hrun : Reaches step s s') : s'.Reachable := by
  obtain ⟨clock, hs⟩ := h
  exact ⟨clock, hs.trans hrun⟩

theorem Reachable.next (h : s.Reachable) (ha : s.step a = some s') : s'.Reachable :=
  h.trans (.single ha)

theorem Steps.db (h : Steps s a s') : s'.db = s.db ∨ ∃ act, s.db.step act = some s'.db := by
  cases h with
  | store hown h => exact .inr ⟨_, h⟩
  | start h => exact .inl rfl
  | worker hw hlive h hdb => exact hdb.step

theorem step_reaches (h : s.step a = some s') : Reaches Database.step s.db s'.db := by
  rcases (step_spec h).db with heq | ⟨act, hact⟩
  · rw [heq]
    exact .refl _
  · exact .single hact

/-- **Projection.** Whatever workers do, the database sees an interleaving of calls. -/
theorem Reachable.db (h : s.Reachable) : s.db.Reachable := by
  obtain ⟨clock, hs⟩ := h
  exact ⟨clock, hs.project System.db fun t a t' ha => step_reaches ha⟩

theorem reaches_db (h : Reaches step s s') : Reaches Database.step s.db s'.db :=
  h.project System.db fun _ _ _ ha => step_reaches ha

end System

end PulseStream
