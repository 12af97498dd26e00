import PulseStream.Api.Ingest
import PulseStream.Core.Uuid
import PulseStream.System.View

/-!
# `GET /v1/events/{event_id}`

The handler `get` of `pulsestream-api/src/events.rs`. A client reads an event under the text of its
id, and sees the row without what is not public.
-/

namespace PulseStream

/-! ## The handler -/

/-- Public status view. -/
structure EventStatusResponse where
  eventId : String
  source : String
  eventType : String
  status : String
  acceptedAt : String
  processedAt : Option String
  deriving DecidableEq, Repr

section Handler

variable [UuidText]

def EventRecord.response (record : EventRecord) : EventStatusResponse where
  eventId := record.eventId.display
  source := record.source
  eventType := record.eventType
  status := record.status.asApiStr
  acceptedAt := record.acceptedAt
  processedAt := record.processedAt

/-- `get`, with `Store::get` as an argument. -/
def getEvent (find : EventId → Except StoreError (Option EventRecord)) (path : String) :
    Except ApiError EventStatusResponse := do
  let id ← (EventId.parse path).elim (.error .invalidEventId) .ok
  let found ← (find id).mapError storeError
  let record ← found.elim (.error .eventNotFound) .ok
  return record.response

end Handler

/-! ## What is read -/

section Read

variable [UuidText] (toChar : Timestamp → String)

/-- What a client is shown of a row. -/
def Row.view (r : Row) : EventStatusResponse :=
  EventRecord.response ⟨r.eventId, r.source, r.eventType, r.status, toChar r.acceptedAt,
    r.processedAt.map toChar⟩

theorem getEvent_of_mem {s : Database} (hs : s.Sound) {r : Row} (hr : r ∈ s.events)
    {path : String} (hpath : EventId.parse path = some r.eventId) :
    getEvent (s.get toChar) path = .ok (r.view toChar) := by
  have hget := Database.get_of_mem toChar hs hr (r.record_eq toChar)
  simp only [getEvent, hpath, Option.elim_some, bind, Except.bind, hget, Except.mapError]
  rfl

end Read

end PulseStream
