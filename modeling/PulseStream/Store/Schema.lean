import PulseStream.Core.Idempotency
import PulseStream.Store.Jsonb

/-!
# The `events` table

Columns, CHECK constraints and the content trigger of `migrations/0001_create_events.sql`, the
row changes of the three statements that write it, and the errors they raise. A row is its
content, fixed by the INSERT, and its lifecycle columns. `NULL` is `none`.
-/

namespace PulseStream

/-! ## Errors -/

/-- `sqlx::Error`, as far as `StoreError` tells it apart. -/
inductive SqlxError where
  | io
  | tls
  | protocol
  | poolTimedOut
  | poolClosed
  | workerCrashed
  | database (code : Option String)
  | columnDecode
  | other
  deriving DecidableEq, Repr

namespace SqlxError

/-! The SQLSTATE codes the statements of the store can raise by themselves. -/

def characterNotInRepertoire : SqlxError := .database (some "22021")
def untranslatableCharacter : SqlxError := .database (some "22P05")
def numericValueOutOfRange : SqlxError := .database (some "22003")
def integrityConstraintViolation : SqlxError := .database (some "23000")
def uniqueViolation : SqlxError := .database (some "23505")
def checkViolation : SqlxError := .database (some "23514")

end SqlxError

inductive StoreError where
  | unavailable (e : SqlxError)
  | database (e : SqlxError)
  | inconsistent (what : String)
  deriving DecidableEq, Repr

namespace StoreError

def isUnavailable : StoreError → Bool
  | unavailable _ => true
  | _ => false

/-- `From<sqlx::Error> for StoreError`. -/
def ofSqlx (e : SqlxError) : StoreError :=
  let isUnavailable := match e with
    | .io | .tls | .protocol | .poolTimedOut | .poolClosed | .workerCrashed => true
    | .database (some code) =>
      -- 08xxx connection exception, 57P01-57P03 shutdown, 53300 too many connections
      "08".toList.isPrefixOf code.toList || "57P".toList.isPrefixOf code.toList || code == "53300"
    | .database none | .columnDecode | .other => false
  if isUnavailable then .unavailable e else .database e

end StoreError

/-! ## Rows -/

/-- The columns that never change after admission. -/
structure Content where
  eventId : EventId
  source : String
  eventType : String
  payload : Jsonb
  idempotencyKey : String
  requestFingerprint : List UInt8
  acceptedAt : Timestamp
  deriving DecidableEq

/-- The columns of `events_source_idempotency_key_key`. -/
def Content.scope (r : Content) : String × String := (r.source, r.idempotencyKey)

/-- The columns a claim orders its candidates by. -/
def Content.claimKey (r : Content) : Timestamp ×ₗ Uuid := toLex (r.acceptedAt, r.eventId.uuid)

/-- A row of `events`. -/
structure Row extends Content where
  status : EventStatus
  processingOwner : Option WorkerId
  processingStartedAt : Option Timestamp
  leaseExpiresAt : Option Timestamp
  processedAt : Option Timestamp
  deliveryAttempts : ℤ
  deriving DecidableEq

/-- The largest `INTEGER`. -/
def integerMax : ℤ := 2 ^ 31 - 1

/-- The last `TIMESTAMPTZ`, at the end of the year 294276. -/
def timestampMax : Timestamp := 9224318015999999999

/-- The largest `INTERVAL` that `make_interval` makes of seconds, in µs. -/
def intervalMax : ℕ := 2 ^ 63 - 1

/-- PostgreSQL can compute `now() + make_interval(secs => lease)`. -/
def LeaseFits (now : Timestamp) (lease : ℕ) : Prop :=
  lease ≤ intervalMax ∧ now + lease ≤ timestampMax

instance (now : Timestamp) (lease : ℕ) : Decidable (LeaseFits now lease) :=
  inferInstanceAs (Decidable (_ ∧ _))

namespace Row

/-- `events_lifecycle_consistent`. -/
def LifecycleConsistent (r : Row) : Prop :=
  (r.status = .pending ∧ r.processingOwner = none ∧ r.processingStartedAt = none ∧
    r.leaseExpiresAt = none ∧ r.processedAt = none) ∨
  (r.status = .processing ∧ r.processingOwner ≠ none ∧ r.processingStartedAt ≠ none ∧
    r.leaseExpiresAt ≠ none ∧ r.processedAt = none ∧ 1 ≤ r.deliveryAttempts) ∨
  (r.status = .processed ∧ r.processingOwner = none ∧ r.leaseExpiresAt = none ∧
    r.processedAt ≠ none ∧ 1 ≤ r.deliveryAttempts)

instance : DecidablePred LifecycleConsistent := fun r => by
  unfold LifecycleConsistent
  infer_instance

/-- The CHECK constraints on single columns. The one on `status` is its type. -/
def ColumnChecks (r : Row) : Prop :=
  (1 ≤ r.source.toList.length ∧ r.source.toList.length ≤ 100) ∧
  (1 ≤ r.eventType.toList.length ∧ r.eventType.toList.length ≤ 150) ∧
  r.payload.isNull = false ∧
  (1 ≤ r.idempotencyKey.toList.length ∧ r.idempotencyKey.toList.length ≤ 128) ∧
  r.requestFingerprint.length = 32 ∧
  0 ≤ r.deliveryAttempts

instance : DecidablePred ColumnChecks := fun r => by
  unfold ColumnChecks
  infer_instance

/-- Every CHECK of the table. -/
def Checks (r : Row) : Prop := r.ColumnChecks ∧ r.LifecycleConsistent

instance : DecidablePred Checks := fun r => by
  unfold Checks
  infer_instance

/-- `events_reject_content_update` raises: some content column is distinct from the old one. -/
def contentDiffers (old new : Row) : Bool :=
  new.eventId != old.eventId || new.source != old.source || new.eventType != old.eventType ||
    new.payload != old.payload || new.idempotencyKey != old.idempotencyKey ||
    new.requestFingerprint != old.requestFingerprint || new.acceptedAt != old.acceptedAt

theorem contentDiffers_eq_false {old new : Row} (h : new.toContent = old.toContent) :
    contentDiffers old new = false := by
  obtain ⟨⟨_, _, _, _, _, _, _⟩, _, _, _, _, _, _⟩ := old
  obtain ⟨⟨_, _, _, _, _, _, _⟩, _, _, _, _, _, _⟩ := new
  simp only [Content.mk.injEq] at h
  obtain ⟨rfl, rfl, rfl, rfl, rfl, rfl, rfl⟩ := h
  simp [contentDiffers]

/-- An UPDATE of a row: the trigger runs first, then the CHECK constraints. -/
def update (old new : Row) : Except SqlxError Row :=
  if contentDiffers old new then .error .integrityConstraintViolation
  else if new.Checks then .ok new
  else .error .checkViolation

/-! ## The statements on one row -/

/-- The WHERE clause of the candidates: pending, or processing under an expired lease. -/
def Claimable (now : Timestamp) (r : Row) : Prop :=
  r.status = .pending ∨ (r.status = .processing ∧ ∃ l ∈ r.leaseExpiresAt, l ≤ now)

instance (now : Timestamp) : DecidablePred (Claimable now) := fun r => by
  unfold Claimable
  infer_instance

/-- The SET list of the claim. -/
def claimed (owner : WorkerId) (now : Timestamp) (lease : ℕ) (e : Row) : Row :=
  { e with
    status := .processing
    processingOwner := some owner
    processingStartedAt := some now
    leaseExpiresAt := some (now + lease)
    deliveryAttempts := e.deliveryAttempts + 1 }

/-- The claim's UPDATE of one row. The increment fails at the end of the `INTEGER` range. -/
def claim (owner : WorkerId) (now : Timestamp) (lease : ℕ) (e : Row) : Except SqlxError Row :=
  if integerMax < e.deliveryAttempts + 1 then .error .numericValueOutOfRange
  else e.update (e.claimed owner now lease)

/-- The WHERE clause of the completion, apart from the id. -/
def OwnedBy (owner : WorkerId) (r : Row) : Prop :=
  r.status = .processing ∧ r.processingOwner = some owner

instance (owner : WorkerId) : DecidablePred (OwnedBy owner) := fun r => by
  unfold OwnedBy
  infer_instance

/-- The SET list of the completion. -/
def completed (now : Timestamp) (e : Row) : Row :=
  { e with
    status := .processed
    processedAt := some now
    processingOwner := none
    leaseExpiresAt := none }

/-- The completion's UPDATE of one row. -/
def complete (now : Timestamp) (e : Row) : Except SqlxError Row := e.update (e.completed now)

end Row

end PulseStream
