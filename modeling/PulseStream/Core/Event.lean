import PulseStream.Core.Json

/-!
# The validated event model

Identities, lifecycle states and labels of `pulsestream-core/src/event.rs`. A label (a `source`
or an `event_type`) carries the proof that it passed `validateLabel`, so everything after
admission can rely on it.
-/

namespace PulseStream

/-- A UUID, as the 128-bit number whose order is PostgreSQL's order on `UUID`. -/
abbrev Uuid := ℕ

/-- Microseconds since the Unix epoch, the resolution of `TIMESTAMPTZ`. -/
abbrev Timestamp := ℤ

/-- Server-generated identity of an admitted event. -/
structure EventId where
  uuid : Uuid
  deriving DecidableEq, Repr

/-- Identity of one worker process instance, stored as the owner of the events it claims. -/
structure WorkerId where
  uuid : Uuid
  deriving DecidableEq, Repr

/-! ## Lifecycle states -/

/-- Durable lifecycle state of an event. -/
inductive EventStatus where
  | pending
  | processing
  | processed
  deriving DecidableEq, Repr

namespace EventStatus

/-- Value stored in the `events.status` column. -/
def asDbStr : EventStatus → String
  | pending => "PENDING"
  | processing => "PROCESSING"
  | processed => "PROCESSED"

def fromDbStr (value : String) : Option EventStatus :=
  if value = "PENDING" then some pending
  else if value = "PROCESSING" then some processing
  else if value = "PROCESSED" then some processed
  else none

/-- Stable, lowercase value used in the public API. -/
def asApiStr : EventStatus → String
  | pending => "pending"
  | processing => "processing"
  | processed => "processed"

@[simp] theorem fromDbStr_asDbStr (s : EventStatus) : fromDbStr s.asDbStr = some s := by
  cases s <;> decide

theorem asDbStr_injective : Function.Injective asDbStr := by
  intro a b h
  have hab := congrArg fromDbStr h
  simpa using hab

end EventStatus

/-! ## Labels -/

/-- A reason an event was rejected. -/
inductive ValidationError where
  | empty (field : String)
  | tooLong (field : String) (max : ℕ)
  | controlCharacter (field : String)
  | nullPayload
  deriving DecidableEq, Repr

/-- The text of the error, returned to clients. -/
def ValidationError.message : ValidationError → String
  | empty field => field ++ " must not be empty"
  | tooLong field max => field ++ " must be at most " ++ toString max ++ " characters"
  | controlCharacter field => field ++ " must not contain control characters"
  | nullPayload => "payload must not be null"

/-- `char::is_whitespace`: the Unicode property `White_Space`. -/
def isWhitespace (c : Char) : Bool :=
  let n := c.toNat
  (0x09 ≤ n && n ≤ 0x0D) || n == 0x20 || n == 0x85 || n == 0xA0 || n == 0x1680 ||
    (0x2000 ≤ n && n ≤ 0x200A) || n == 0x2028 || n == 0x2029 || n == 0x202F || n == 0x205F ||
    n == 0x3000

/-- `char::is_control`: the Unicode category `Cc`. -/
def isControl (c : Char) : Bool :=
  let n := c.toNat
  n ≤ 0x1F || (0x7F ≤ n && n ≤ 0x9F)

/-- `str::trim`, on the characters of the string. -/
def trim (value : String) : List Char :=
  ((value.toList.dropWhile isWhitespace).reverse.dropWhile isWhitespace).reverse

/-- Validates a short identifier-like field. -/
def validateLabel (field : String) (value : String) (max : ℕ) : Except ValidationError Unit :=
  if (trim value).isEmpty then .error (.empty field)
  else if value.toList.length > max then .error (.tooLong field max)
  else if value.toList.any isControl then .error (.controlCharacter field)
  else .ok ()

theorem validateLabel_eq_ok {field value : String} {max : ℕ} :
    validateLabel field value max = .ok () ↔
      (trim value).isEmpty = false ∧ value.toList.length ≤ max ∧
        ∀ c ∈ value.toList, isControl c = false := by
  unfold validateLabel
  split_ifs with he hl hc
  · simp [he]
  · simp [Nat.not_le_of_lt hl]
  · simp only [false_iff, not_and, not_forall]
    intro _ _
    obtain ⟨c, hmem, hctl⟩ := List.any_eq_true.mp hc
    exact ⟨c, hmem, by simp [hctl]⟩
  · simp only [true_iff]
    refine ⟨by simpa using he, by omega, ?_⟩
    intro c hmem
    by_contra hctl
    exact hc (List.any_eq_true.mpr ⟨c, hmem, by simpa using hctl⟩)

theorem trim_nil_of_empty {value : String} (h : value.toList = []) : trim value = [] := by
  unfold trim
  rw [h]
  rfl

theorem trim_append (value : String) :
    ∃ l r : List Char, value.toList = l ++ trim value ++ r ∧ (∀ c ∈ l, isWhitespace c = true) ∧
      ∀ c ∈ r, isWhitespace c = true := by
  unfold trim
  generalize value.toList = cs
  have hright := (List.takeWhile_append_dropWhile
    (p := isWhitespace) (l := (cs.dropWhile isWhitespace).reverse))
  refine ⟨cs.takeWhile isWhitespace,
    ((cs.dropWhile isWhitespace).reverse.takeWhile isWhitespace).reverse, ?_, ?_, ?_⟩
  · rw [List.append_assoc, ← List.reverse_append, hright, List.reverse_reverse,
      List.takeWhile_append_dropWhile]
  · exact fun c hc => List.mem_takeWhile_imp hc
  · exact fun c hc => List.mem_takeWhile_imp (List.mem_reverse.mp hc)

/-- A validated label of the named field: at most `max` characters, not blank, no control
characters. -/
structure Label (field : String) (max : ℕ) where
  asStr : String
  valid : validateLabel field asStr max = .ok ()
  deriving DecidableEq

namespace Label

variable {field : String} {max : ℕ}

def parse (field : String) (max : ℕ) (value : String) :
    Except ValidationError (Label field max) :=
  match h : validateLabel field value max with
  | .ok () => .ok ⟨value, h⟩
  | .error e => .error e

@[ext] theorem ext {a b : Label field max} (h : a.asStr = b.asStr) : a = b := by
  cases a
  cases b
  cases h
  rfl

theorem parse_eq_ok {value : String} {l : Label field max} :
    parse field max value = .ok l ↔ l.asStr = value := by
  unfold parse
  constructor
  · intro h
    split at h
    · cases h
      rfl
    · cases h
  · rintro rfl
    split
    · rfl
    · rename_i e he
      rw [l.valid] at he
      cases he

theorem parse_asStr (l : Label field max) : parse field max l.asStr = .ok l :=
  parse_eq_ok.mpr rfl

theorem length_le (l : Label field max) : l.asStr.toList.length ≤ max :=
  (validateLabel_eq_ok.mp l.valid).2.1

theorem length_pos (l : Label field max) : 1 ≤ l.asStr.toList.length := by
  have hne := (validateLabel_eq_ok.mp l.valid).1
  by_contra h
  have hnil : l.asStr.toList = [] := List.length_eq_zero_iff.mp (by omega)
  rw [trim_nil_of_empty hnil] at hne
  exact absurd hne (by decide)

theorem not_control (l : Label field max) : ∀ c ∈ l.asStr.toList, isControl c = false :=
  (validateLabel_eq_ok.mp l.valid).2.2

end Label

/-- Maximum length of `EventSource`, in Unicode scalar values. -/
def maxSourceChars : ℕ := 100

/-- Maximum length of `EventType`, in Unicode scalar values. -/
def maxEventTypeChars : ℕ := 150

/-- The producer that emitted an event. -/
abbrev EventSource := Label "source" maxSourceChars

/-- The kind of event. -/
abbrev EventType := Label "event_type" maxEventTypeChars

def EventSource.parse (value : String) : Except ValidationError EventSource :=
  Label.parse "source" maxSourceChars value

def EventType.parse (value : String) : Except ValidationError EventType :=
  Label.parse "event_type" maxEventTypeChars value

/-- The source of the sample runs. -/
def EventSource.ordersApi : EventSource := ⟨"orders-api", by decide⟩

/-- The event type of the sample runs. -/
def EventType.orderCreated : EventType := ⟨"order.created", by decide⟩

/-! ## Events -/

/-- A validated event, assigned an identity at admission time. The payload is opaque. -/
structure Event (P : Type) where
  id : EventId
  source : EventSource
  eventType : EventType
  payload : P
  acceptedAt : Timestamp
  deriving DecidableEq

/-- Validates raw fields. The fresh identity and the clock reading are arguments. -/
def Event.new {F : Type} (id : EventId) (now : Timestamp) (source eventType : String)
    (payload : Value F) : Except ValidationError (Event (Value F)) := do
  let source ← EventSource.parse source
  let eventType ← EventType.parse eventType
  if payload.isNull then throw .nullPayload
  return ⟨id, source, eventType, payload, now⟩

theorem Event.new_eq_ok {F : Type} {id : EventId} {now : Timestamp} {source eventType : String}
    {payload : Value F} {event : Event (Value F)}
    (h : Event.new id now source eventType payload = .ok event) :
    event.id = id ∧ event.source.asStr = source ∧ event.eventType.asStr = eventType ∧
      event.payload = payload ∧ payload.isNull = false := by
  unfold Event.new at h
  cases hs : EventSource.parse source with
  | error e =>
    rw [hs] at h
    cases h
  | ok s =>
    cases ht : EventType.parse eventType with
    | error e =>
      rw [hs, ht] at h
      cases h
    | ok t =>
      cases hn : payload.isNull with
      | true =>
        rw [hs, ht, hn] at h
        cases h
      | false =>
        rw [hs, ht, hn] at h
        obtain rfl := Except.ok.inj h
        exact ⟨rfl, Label.parse_eq_ok.mp hs, Label.parse_eq_ok.mp ht, rfl, rfl⟩

theorem Event.new_ok {F : Type} (id : EventId) (now : Timestamp) (source : EventSource)
    (eventType : EventType) {payload : Value F} (h : payload.isNull = false) :
    Event.new id now source.asStr eventType.asStr payload =
      .ok ⟨id, source, eventType, payload, now⟩ := by
  unfold Event.new EventSource.parse EventType.parse
  rw [source.parse_asStr, eventType.parse_asStr, h]
  rfl

end PulseStream
