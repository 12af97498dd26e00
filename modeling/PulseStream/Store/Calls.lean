import PulseStream.Lib.KeySort
import PulseStream.Lib.Table
import PulseStream.Store.Schema

/-!
# The store as a concurrent machine

`Store::admit`, `Store::claim` and `Store::complete` as calls that advance one statement, or one
row lock, at a time against the committed table. PostgreSQL at READ COMMITTED is modelled by what
a step may see: every statement reads the rows committed when it runs, an INSERT waits for an
uncommitted row of its key, a row lock is held until the call ends, `SKIP LOCKED` passes over
locked rows, and a row is checked again on its latest version when it is locked. A call can fail,
be dropped or lose its reply at every point.

Locks and uncommitted rows are not stored: they are read off the calls in progress. `log` records
every committed row version with the call that wrote it.
-/

namespace PulseStream

open KeySort

/-! ## Calls -/

/-- The statement parameters bound by `Store::admit`. -/
structure AdmitArgs where
  eventId : EventId
  source : String
  eventType : String
  payload : Json Token
  idempotencyKey : String
  requestFingerprint : List UInt8
  deriving DecidableEq

/-- `Store::admit(&event, &key, &fingerprint)` as bound: the payload travels as JSON text. -/
def AdmitArgs.ofEvent {F : Type} [SerdeJson F] (event : Event (Value F))
    (key : IdempotencyKey) (fingerprint : RequestFingerprint) : AdmitArgs where
  eventId := event.id
  source := event.source.asStr
  eventType := event.eventType.asStr
  payload := event.payload.json.map Number.token
  idempotencyKey := key.expose
  requestFingerprint := fingerprint.asBytes

def AdmitArgs.scope (args : AdmitArgs) : String × String := (args.source, args.idempotencyKey)

inductive AdmitOutcome where
  | created (id : EventId)
  | replayed (id : EventId)
  | conflict
  deriving DecidableEq, Repr

/-- The arguments of `Store::claim`, with the lease in µs. A lease that does not fit makes
PostgreSQL abort the statement (`Database.stepChecked`). -/
structure ClaimArgs where
  owner : WorkerId
  limit : ℕ
  lease : ℕ
  deriving DecidableEq

/-- `i64::try_from(limit).unwrap_or(i64::MAX)`. -/
def ClaimArgs.sqlLimit (args : ClaimArgs) : ℕ := min args.limit (2 ^ 63 - 1)

/-- A row returned by the claim's UPDATE, with its `previous_status`. -/
structure Grant where
  row : Row
  previous : EventStatus
  deriving DecidableEq

structure CompleteArgs where
  id : EventId
  owner : WorkerId
  deriving DecidableEq

/-- How far a call has come. `running` is an open transaction, `committed` one whose answer is on
its way. -/
inductive Progress (W R : Type) where
  | running (w : W)
  | committed (r : R)
  | returned (r : R)
  | failed (e : StoreError)
  | dropped
  deriving DecidableEq

/-- The answer of a call that has committed. -/
def Progress.answer {W R : Type} : Progress W R → Option R
  | .committed r => some r
  | .returned r => some r
  | _ => none

/-- What the caller sees of a call that has ended. -/
def Progress.result {W R : Type} : Progress W R → Option (Except StoreError R)
  | .committed r => some (.ok r)
  | .returned r => some (.ok r)
  | .failed e => some (.error e)
  | _ => none

/-- The statements of `Store::admit`; `now` is the transaction's time. -/
inductive AdmitStage where
  | begun (now : Timestamp)
  | inserted (row : Row)
  | taken
  | resolved (outcome : AdmitOutcome)
  deriving DecidableEq

/-- The claim works through the candidates of its snapshot and locks the rows it picks. -/
inductive ClaimStage where
  | begun (now : Timestamp)
  | scanning (now : Timestamp) (rest : List EventId) (picked : List Row)
  deriving DecidableEq

/-- The completion finds its row in the snapshot, locks it and checks it again. -/
inductive CompleteStage where
  | begun (now : Timestamp)
  | found (now : Timestamp)
  | locked (now : Timestamp) (row : Row)
  | unmatched
  deriving DecidableEq

inductive Call where
  | admitEvent (args : AdmitArgs) (p : Progress AdmitStage AdmitOutcome)
  | claim (args : ClaimArgs) (p : Progress ClaimStage (List Grant))
  | complete (args : CompleteArgs) (p : Progress CompleteStage Bool)
  deriving DecidableEq

namespace Call

/-- The row a call has inserted and not committed. -/
def insertedRow : Call → Option Row
  | .admitEvent _ (.running (.inserted row)) => some row
  | _ => none

/-- The committed rows a call holds locks on. -/
def lockedRows : Call → List Row
  | .claim _ (.running (.scanning _ _ picked)) => picked
  | .complete _ (.running (.locked _ row)) => [row]
  | _ => []

def locks (call : Call) (id : EventId) : Bool := call.lockedRows.any fun r => r.eventId == id

end Call

/-! ## The database -/

/-- What a committed write did to its row. -/
inductive WriteOp where
  | insert
  | claim (owner : WorkerId) (now : Timestamp) (lease : ℕ) (previous : EventStatus)
  | complete (owner : WorkerId) (now : Timestamp)
  deriving DecidableEq

/-- A committed row version. -/
structure Write where
  call : ℕ
  op : WriteOp
  row : Row
  deriving DecidableEq

structure Database where
  events : List Row
  clock : Timestamp
  calls : List Call
  log : List Write
  deriving DecidableEq

namespace Database

/-- The migrated, empty database. -/
def empty (clock : Timestamp) : Database := ⟨[], clock, [], []⟩

def uncommitted (s : Database) : List Row := s.calls.filterMap Call.insertedRow

def lockedBySome (s : Database) (id : EventId) : Bool := s.calls.any fun call => call.locks id

def rowOf (s : Database) (id : EventId) : Option Row := Table.lookup (·.eventId) id s.events

def rowOfScope (s : Database) (scope : String × String) : Option Row :=
  Table.lookup (·.scope) scope s.events

def setCall (s : Database) (c : ℕ) (call : Call) : Database :=
  { s with calls := s.calls.set c call }

end Database

/-! ## `Store::admit` -/

/-- The row of the INSERT, with the defaults of the schema. -/
def AdmitArgs.row (args : AdmitArgs) (payload : Jsonb) (now : Timestamp) : Row where
  eventId := args.eventId
  source := args.source
  eventType := args.eventType
  payload := payload
  idempotencyKey := args.idempotencyKey
  requestFingerprint := args.requestFingerprint
  acceptedAt := now
  status := .pending
  processingOwner := none
  processingStartedAt := none
  leaseExpiresAt := none
  processedAt := none
  deliveryAttempts := 0

/-- The row to insert, unless a column type or a CHECK refuses it. -/
def AdmitArgs.checkedRow (args : AdmitArgs) (now : Timestamp) : Except SqlxError Row :=
  if hasNul args.source || hasNul args.eventType || hasNul args.idempotencyKey then
    .error .characterNotInRepertoire
  else match jsonbIn args.payload with
    | none => .error .untranslatableCharacter
    | some payload =>
      if (args.row payload now).Checks then .ok (args.row payload now) else .error .checkViolation

namespace Database

/-- `INSERT … ON CONFLICT ON CONSTRAINT events_source_idempotency_key_key DO NOTHING`. The call
cannot move while an uncommitted row has its key, or its id. -/
def insertEvent (s : Database) (row : Row) : Option (Progress AdmitStage AdmitOutcome) :=
  if s.uncommitted.any fun r => r.scope == row.scope then none
  else if (s.rowOfScope row.scope).isSome then some (.running .taken)
  else if s.uncommitted.any fun r => r.eventId == row.eventId then none
  else if (s.rowOf row.eventId).isSome then some (.failed (.ofSqlx .uniqueViolation))
  else some (.running (.inserted row))

/-- The lookup that follows a conflict. -/
def resolve (s : Database) (args : AdmitArgs) : Progress AdmitStage AdmitOutcome :=
  match s.rowOfScope args.scope with
  | some r =>
    if r.requestFingerprint = args.requestFingerprint then
      .running (.resolved (.replayed r.eventId))
    else .running (.resolved .conflict)
  | none => .failed (.inconsistent "conflicting row not found")

def advanceAdmit (s : Database) (c : ℕ) (args : AdmitArgs) : AdmitStage → Option Database
  | .begun now =>
    match args.checkedRow now with
    | .error e => some (s.setCall c (.admitEvent args (.failed (.ofSqlx e))))
    | .ok row => do
      let p ← s.insertEvent row
      some (s.setCall c (.admitEvent args p))
  | .inserted row =>
    some { s.setCall c (.admitEvent args (.committed (.created row.eventId))) with
      events := s.events ++ [row]
      log := s.log ++ [⟨c, .insert, row⟩] }
  | .taken => some (s.setCall c (.admitEvent args (s.resolve args)))
  | .resolved outcome => some (s.setCall c (.admitEvent args (.committed outcome)))

/-! ## `Store::claim` -/

/-- The claimable rows of a snapshot, `ORDER BY accepted_at, event_id`. -/
def candidateRows (s : Database) (now : Timestamp) : List Row :=
  keySort (fun r => r.claimKey) (s.events.filter fun r => r.Claimable now)

def candidates (s : Database) (now : Timestamp) : List EventId :=
  (s.candidateRows now).map (·.eventId)

/-- The next candidate is locked if it is free and its latest version is still claimable. -/
def pick (s : Database) (now : Timestamp) (id : EventId) : Option Row :=
  if s.lockedBySome id then none else (s.rowOf id).filter fun r => r.Claimable now

/-- The claim's UPDATE of the rows it locked. -/
def claimRows (args : ClaimArgs) (now : Timestamp) (picked : List Row) :
    Except SqlxError (List Grant) :=
  picked.mapM fun r => do
    let row ← r.claim args.owner now args.lease
    return ⟨row, r.status⟩

/-- The UPDATE and its commit. The rows are locked, so no other call sees a state in between. The
rows are returned in the order they were locked; nothing depends on that order. -/
def commitClaim (s : Database) (c : ℕ) (args : ClaimArgs) (now : Timestamp) (picked : List Row) :
    Database :=
  match claimRows args now picked with
  | .error e => s.setCall c (.claim args (.failed (.ofSqlx e)))
  | .ok grants =>
    { s.setCall c (.claim args (.committed grants)) with
      events := Table.put (·.eventId) (grants.map (·.row)) s.events
      log := s.log ++ grants.map fun g => ⟨c, .claim args.owner now args.lease g.previous, g.row⟩ }

def advanceClaim (s : Database) (c : ℕ) (args : ClaimArgs) : ClaimStage → Option Database
  | .begun now =>
    some (s.setCall c (.claim args (.running (.scanning now (s.candidates now) []))))
  | .scanning now [] picked => some (s.commitClaim c args now picked)
  | .scanning now (id :: rest) picked =>
    if picked.length = args.sqlLimit then some (s.commitClaim c args now picked)
    else
      let picked' := picked ++ (s.pick now id).toList
      some (s.setCall c (.claim args (.running (.scanning now rest picked'))))

/-! ## `Store::complete` -/

def advanceComplete (s : Database) (c : ℕ) (args : CompleteArgs) :
    CompleteStage → Option Database
  | .begun now =>
    match (s.rowOf args.id).filter fun r => r.OwnedBy args.owner with
    | some _ => some (s.setCall c (.complete args (.running (.found now))))
    | none => some (s.setCall c (.complete args (.running .unmatched)))
  | .found now =>
    if s.lockedBySome args.id then none
    else match (s.rowOf args.id).filter fun r => r.OwnedBy args.owner with
      | some r => some (s.setCall c (.complete args (.running (.locked now r))))
      | none => some (s.setCall c (.complete args (.running .unmatched)))
  | .locked now r =>
    match r.complete now with
    | .error e => some (s.setCall c (.complete args (.failed (.ofSqlx e))))
    | .ok row =>
      some { s.setCall c (.complete args (.committed true)) with
        events := Table.put (·.eventId) [row] s.events
        log := s.log ++ [⟨c, .complete args.owner now, row⟩] }
  | .unmatched => some (s.setCall c (.complete args (.committed false)))

end Database

/-! ## The machine -/

inductive Request where
  | admitEvent (args : AdmitArgs)
  | claim (args : ClaimArgs)
  | complete (args : CompleteArgs)
  deriving DecidableEq

/-- A call as it starts. A claim with `limit == 0` returns without a statement. -/
def Request.start (now : Timestamp) : Request → Call
  | .admitEvent args => .admitEvent args (.running (.begun now))
  | .claim args =>
    if args.limit = 0 then .claim args (.returned []) else .claim args (.running (.begun now))
  | .complete args => .complete args (.running (.begun now))

/-- What can end a call from outside: an error in the middle, the answer, the loss of the answer
of a commit, or the client dropping the call. A statement that outlives its client goes on. -/
inductive Signal where
  | abort (e : SqlxError)
  | reply
  | loseReply (e : SqlxError)
  | drop
  deriving DecidableEq

def Progress.signal {W R : Type} : Signal → Progress W R → Option (Progress W R)
  | .abort e, .running _ => some (.failed (.ofSqlx e))
  | .reply, .committed r => some (.returned r)
  | .loseReply e, .committed _ => some (.failed (.ofSqlx e))
  | .drop, .running _ => some .dropped
  | .drop, .committed _ => some .dropped
  | _, _ => none

def Call.signal (sig : Signal) : Call → Option Call
  | .admitEvent args p => (p.signal sig).map (.admitEvent args)
  | .claim args p => (p.signal sig).map (.claim args)
  | .complete args p => (p.signal sig).map (.complete args)

inductive Act where
  | tick (now : Timestamp)
  | begin (req : Request)
  | advance (c : ℕ)
  | signal (c : ℕ) (sig : Signal)
  deriving DecidableEq

namespace Database

/-- One statement, or one row lock, of call `c`. -/
def advance (s : Database) (c : ℕ) : Option Database :=
  match s.calls[c]? with
  | some (.admitEvent args (.running stage)) => s.advanceAdmit c args stage
  | some (.claim args (.running stage)) => s.advanceClaim c args stage
  | some (.complete args (.running stage)) => s.advanceComplete c args stage
  | _ => none

def step (s : Database) : Act → Option Database
  | .tick now => some { s with clock := now }
  | .begin req => some { s with calls := s.calls ++ [req.start s.clock] }
  | .advance c => s.advance c
  | .signal c sig => do
    let call ← s.calls[c]?
    let call' ← call.signal sig
    some (s.setCall c call')

end Database

end PulseStream
