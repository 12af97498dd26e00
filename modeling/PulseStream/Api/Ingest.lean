import PulseStream.Store.Leases

/-!
# `POST /v1/events`

The handler `ingest` of `pulsestream-api/src/events.rs` with its error responses, and the question
whether a request that passes validation can be stored. `admit_stored_iff`: it can exactly when no
string and no key of the payload contains U+0000, which validation does not look at.
-/

namespace PulseStream

/-! ## Errors and their responses -/

inductive ApiError where
  | invalidEvent (message : String)
  | payloadTooLarge
  | unsupportedMediaType
  | idempotencyKeyRequired
  | idempotencyKeyInvalid
  | idempotencyConflict
  | invalidEventId
  | eventNotFound
  | persistenceUnavailable
  | internal
  deriving DecidableEq, Repr

/-- Status, code and message of an error response. -/
def ApiError.parts : ApiError → ℕ × String × String
  | invalidEvent message => (400, "INVALID_EVENT", message)
  | payloadTooLarge => (413, "PAYLOAD_TOO_LARGE", "request body exceeds the 64 KiB limit")
  | unsupportedMediaType =>
    (415, "UNSUPPORTED_MEDIA_TYPE", "Content-Type must be application/json")
  | idempotencyKeyRequired =>
    (400, "IDEMPOTENCY_KEY_REQUIRED", "Idempotency-Key header is required")
  | idempotencyKeyInvalid =>
    (400, "IDEMPOTENCY_KEY_INVALID",
      "Idempotency-Key must be 1-128 characters of visible ASCII (no spaces)")
  | idempotencyConflict =>
    (409, "IDEMPOTENCY_CONFLICT",
      "Idempotency-Key was already used for a different event from this source")
  | invalidEventId => (400, "INVALID_EVENT_ID", "event_id must be a UUID")
  | eventNotFound => (404, "EVENT_NOT_FOUND", "event not found")
  | persistenceUnavailable =>
    (503, "PERSISTENCE_UNAVAILABLE", "event persistence is temporarily unavailable")
  | internal => (500, "INTERNAL_ERROR", "internal server error")

/-- `JsonRejection`, as far as `from_json_rejection` tells it apart. -/
inductive JsonRejection where
  | missingJsonContentType
  | bytesRejection (tooLarge : Bool)
  | jsonSyntaxError
  | jsonDataError
  deriving DecidableEq

def ApiError.fromJsonRejection : JsonRejection → ApiError
  | .missingJsonContentType => unsupportedMediaType
  | .bytesRejection true => payloadTooLarge
  | .jsonSyntaxError => invalidEvent "request body is not valid JSON"
  | .jsonDataError => invalidEvent
      "request body must be a JSON object with string fields `source` and `event_type`, a `payload`, and no other fields"
  | .bytesRejection false => invalidEvent "request body could not be read"

def ApiError.ofKeyError : IdempotencyKeyError → ApiError
  | .missing => idempotencyKeyRequired
  | .invalid => idempotencyKeyInvalid

def storeError (e : StoreError) : ApiError :=
  if e.isUnavailable then .persistenceUnavailable else .internal

/-! ## The handler -/

structure EventRequest (F : Type) where
  source : String
  eventType : String
  payload : Value F

/-- A `202` response: the event id and the `Idempotency-Replayed` header. -/
structure AcceptedResponse where
  eventId : EventId
  replayed : Bool
  deriving DecidableEq

/-- `HeaderValue`, as far as the handler looks at it: what `to_str` returns. -/
structure HeaderValue where
  toStr : Option String

/-- The key of the `idempotency-key` header, if there is one. -/
def idempotencyKey (header : Option HeaderValue) : Except IdempotencyKeyError IdempotencyKey := do
  let value ← header.elim (.error .missing) .ok
  let value ← value.toStr.elim (.error .invalid) .ok
  IdempotencyKey.parse value

section Ingest

variable {F : Type} [SerdeJson F] (sha256 : List UInt8 → RequestFingerprint)

/-- The admission of an event under its fingerprint. -/
def admission (event : Event (Value F)) (key : IdempotencyKey) : AdmitArgs :=
  .ofEvent event key (.compute sha256 event.source event.eventType event.payload)

/-- The response to what `Store::admit` has returned. -/
def respond : AdmitOutcome → Except ApiError AcceptedResponse
  | .created id => .ok ⟨id, false⟩
  | .replayed id => .ok ⟨id, true⟩
  | .conflict => .error .idempotencyConflict

/-- `ingest`, with the event's fresh id, the clock and the store as arguments. -/
def ingest (id : EventId) (now : Timestamp)
    (admitEvent : AdmitArgs → Except StoreError AdmitOutcome)
    (header : Option HeaderValue) (body : Except JsonRejection (EventRequest F)) :
    Except ApiError AcceptedResponse := do
  let key ← (idempotencyKey header).mapError .ofKeyError
  let request ← body.mapError .fromJsonRejection
  let event ← (Event.new id now request.source request.eventType request.payload).mapError
    fun err => .invalidEvent err.message
  let outcome ← (admitEvent (admission sha256 event key)).mapError storeError
  respond outcome

/-- The status code of the response. -/
def responseStatus : Except ApiError AcceptedResponse → ℕ
  | .ok _ => 202
  | .error e => e.parts.1

end Ingest

/-! ## What validation ensures -/

theorem length_le_utf8 (s : String) : s.toList.length ≤ (utf8 s).length := by
  unfold utf8
  induction s.toList with
  | nil => simp
  | cons c cs ih =>
    have hc := Char.utf8Size_pos c
    rw [List.flatMap_cons, List.length_append, String.length_utf8EncodeChar, List.length_cons]
    omega

namespace IdempotencyKey

variable (key : IdempotencyKey)

theorem length_le : key.expose.toList.length ≤ 128 := by
  have h := key.valid
  simp only [validKey, Bool.and_eq_true, decide_eq_true_eq] at h
  exact (length_le_utf8 _).trans h.1.2

theorem length_pos : 1 ≤ key.expose.toList.length := by
  have h := key.valid
  simp only [validKey, Bool.and_eq_true] at h
  by_contra hlt
  have hnil : key.expose.toList = [] := List.length_eq_zero_iff.mp (by omega)
  rw [utf8, hnil] at h
  exact absurd h.1.1 (by decide)

theorem noNul : hasNul key.expose = false := by
  have h := key.valid
  simp only [validKey, Bool.and_eq_true, List.all_eq_true] at h
  refine List.any_eq_false.mpr fun c hc hzero => ?_
  obtain rfl : c = Char.ofNat 0 := Char.ext (UInt32.toNat_inj.mp (by simpa using hzero))
  have hmem : (0 : UInt8) ∈ utf8 key.expose := List.mem_flatMap.mpr ⟨_, hc, by decide⟩
  exact absurd (h.2 0 hmem) (by decide)

end IdempotencyKey

theorem Label.noNul {field : String} {max : ℕ} (l : Label field max) : hasNul l.asStr = false := by
  refine List.any_eq_false.mpr fun c hc hzero => ?_
  have hctl := l.not_control c hc
  simp only [beq_iff_eq] at hzero
  simp [isControl, hzero] at hctl

section Storable

variable {F : Type} [SerdeJson F] (sha256 : List UInt8 → RequestFingerprint)
  (event : Event (Value F)) (key : IdempotencyKey) (now : Timestamp)

theorem admission_checkedRow_ok (hnull : event.payload.isNull = false)
    (hnul : event.payload.json.noNul = true) :
    ∃ row, (admission sha256 event key).checkedRow now = .ok row := by
  have htext : (event.payload.json.map Number.token).noNul = true :=
    (Json.all_map _ _ _ _).trans hnul
  obtain ⟨payload, hpayload⟩ := Option.isSome_iff_exists.mp (jsonbIn_isSome.trans htext)
  have hpnull : payload.isNull = false :=
    (jsonbIn_isNull hpayload).trans ((Json.isNull_map _ _).trans hnull)
  have hcolumns : ((admission sha256 event key).row payload now).ColumnChecks :=
    ⟨⟨event.source.length_pos, event.source.length_le⟩,
      ⟨event.eventType.length_pos, event.eventType.length_le⟩, hpnull,
      ⟨key.length_pos, key.length_le⟩, RequestFingerprint.length_eq _, le_rfl⟩
  have hlife : ((admission sha256 event key).row payload now).LifecycleConsistent :=
    .inl ⟨rfl, rfl, rfl, rfl, rfl⟩
  exact ⟨_, AdmitArgs.checkedRow_eq_ok.mpr ⟨⟨event.source.noNul, event.eventType.noNul, key.noNul⟩,
    ⟨hcolumns, hlife⟩, payload, hpayload, rfl⟩⟩

theorem admission_checkedRow_error (hnul : event.payload.json.noNul = false) :
    (admission sha256 event key).checkedRow now = .error .untranslatableCharacter := by
  have htext : (event.payload.json.map Number.token).noNul = false :=
    (Json.all_map _ _ _ _).trans hnul
  have hpayload : jsonbIn (admission sha256 event key).payload = none :=
    Option.isSome_eq_false_iff.mp (jsonbIn_isSome.trans htext) |> Option.isNone_iff_eq_none.mp
  unfold AdmitArgs.checkedRow
  rw [if_neg, hpayload]
  have hs := event.source.noNul
  have ht := event.eventType.noNul
  have hk := key.noNul
  simp [admission, AdmitArgs.ofEvent, hs, ht, hk]

/-! ## Running an admission to its end -/

namespace Database

variable {s : Database} {c : ℕ} {args : AdmitArgs}

theorem advance_admission {stage : AdmitStage}
    (hc : s.calls[c]? = some (.admitEvent args (.running stage))) :
    s.step (.advance c) = s.advanceAdmit c args stage := by
  simp only [step, advance, hc]

theorem getElem?_setCall {call call' : Call} (hc : s.calls[c]? = some call) :
    (s.setCall c call').calls[c]? = some call' :=
  List.getElem?_set_self (List.getElem?_eq_some_iff.mp hc).1

theorem run_taken {r : Row} (hc : s.calls[c]? = some (.admitEvent args (.running .taken)))
    (hr : s.rowOfScope args.scope = some r) :
    ∃ o s', Machine.run step s [.advance c, .advance c] = some s' ∧
      s'.calls[c]? = some (.admitEvent args (.committed o)) := by
  obtain ⟨o, ho⟩ : ∃ o, s.resolve args = .running (.resolved o) := by
    simp only [resolve, hr]
    split_ifs <;> exact ⟨_, rfl⟩
  have h₁ : s.step (.advance c) =
      some (s.setCall c (.admitEvent args (.running (.resolved o)))) := by
    rw [advance_admission hc, advanceAdmit, ho]
  have hc₁ : (s.setCall c (.admitEvent args (.running (.resolved o)))).calls[c]? =
      some (.admitEvent args (.running (.resolved o))) := getElem?_setCall hc
  refine ⟨o, _, Machine.run_cons_eq_some.mpr ⟨_, h₁, Machine.run_cons_eq_some.mpr
    ⟨_, advance_admission hc₁, rfl⟩⟩, getElem?_setCall hc₁⟩

/-- A row that passes every check is inserted, or its key is taken; either way the call is
answered within three steps. -/
theorem run_admission {row : Row} {now : Timestamp} (hrow : args.checkedRow now = .ok row)
    (hc : s.calls[c]? = some (.admitEvent args (.running (.begun now))))
    (hid : ∀ r ∈ s.events ++ s.uncommitted, r.eventId ≠ args.eventId)
    (hfree : ∀ r ∈ s.uncommitted, r.scope ≠ args.scope) :
    ∃ n o s', Machine.run step s (List.replicate n (.advance c)) = some s' ∧
      s'.calls[c]? = some (.admitEvent args (.committed o)) := by
  obtain ⟨hscope, hrid⟩ := AdmitArgs.checkedRow_key hrow
  have hopen : (s.uncommitted.any fun r => r.scope == row.scope) = false :=
    List.any_eq_false.mpr fun r hr => by simpa [hscope] using hfree r hr
  have hopenId : (s.uncommitted.any fun r => r.eventId == row.eventId) = false :=
    List.any_eq_false.mpr fun r hr => by simpa [hrid] using hid r (List.mem_append_right _ hr)
  have hrows : s.rowOf row.eventId = none :=
    Table.lookup_eq_none.mpr fun r hr => hrid ▸ hid r (List.mem_append_left _ hr)
  cases hl : s.rowOfScope row.scope with
  | some r =>
    have h₁ : s.step (.advance c) = some (s.setCall c (.admitEvent args (.running .taken))) := by
      rw [advance_admission hc]
      simp [advanceAdmit, hrow, insertEvent, hopen, hl]
    obtain ⟨o, s', hrun, hs'⟩ := run_taken (getElem?_setCall hc) (hscope ▸ hl)
    exact ⟨3, o, s', Machine.run_cons_eq_some.mpr ⟨_, h₁, hrun⟩, hs'⟩
  | none =>
    have h₁ : s.step (.advance c) =
        some (s.setCall c (.admitEvent args (.running (.inserted row)))) := by
      rw [advance_admission hc]
      simp [advanceAdmit, hrow, insertEvent, hopen, hl, hopenId, hrows]
    have hc₁ : (s.setCall c (.admitEvent args (.running (.inserted row)))).calls[c]? =
        some (.admitEvent args (.running (.inserted row))) := getElem?_setCall hc
    exact ⟨2, _, _, Machine.run_cons_eq_some.mpr ⟨_, h₁, Machine.run_cons_eq_some.mpr
      ⟨_, advance_admission hc₁, rfl⟩⟩, getElem?_setCall hc₁⟩

end Database

end Storable

/-! ## Storable requests -/

section Stored

variable {F : Type} [SerdeJson F] (sha256 : List UInt8 → RequestFingerprint)

theorem responseStatus_ingest {id : EventId} {now : Timestamp} {request : EventRequest F}
    {event : Event (Value F)} {key : IdempotencyKey} {header : Option HeaderValue}
    (hevent : Event.new id now request.source request.eventType request.payload = .ok event)
    (hkey : idempotencyKey header = .ok key) (result : Except StoreError AdmitOutcome) :
    responseStatus (ingest sha256 id now (fun _ => result) header (.ok request)) =
      match result with
      | .ok .conflict => 409
      | .ok _ => 202
      | .error e => if e.isUnavailable then 503 else 500 := by
  have hingest : ingest sha256 id now (fun _ => result) header (.ok request) =
      (result.mapError storeError).bind respond := by
    simp only [ingest, hkey, Except.mapError, bind, Except.bind, hevent]
  rw [hingest]
  cases result with
  | ok o => cases o <;> rfl
  | error e =>
    show (storeError e).parts.1 = if e.isUnavailable then 503 else 500
    unfold storeError
    split_ifs <;> rfl

/-- **Storable requests.** Take any database, and a request that passes validation, with a fresh
id and a key that no open INSERT holds. `Store::admit` runs to its end, and it succeeds, so that
the response is `202` or `409`, exactly when no string and no key of the payload contains U+0000;
otherwise the response is `500`. -/
theorem admit_stored_iff {s : Database} {id : EventId} {now : Timestamp}
    {request : EventRequest F} {event : Event (Value F)} (key : IdempotencyKey)
    (hevent : Event.new id now request.source request.eventType request.payload = .ok event)
    (hid : ∀ r ∈ s.events ++ s.uncommitted, r.eventId ≠ id)
    (hfree : ∀ r ∈ s.uncommitted, r.scope ≠ (request.source, key.expose)) :
    ∃ n s' p result,
      Machine.run Database.step s (.begin (.admitEvent (admission sha256 event key)) ::
        List.replicate n (.advance s.calls.length)) = some s' ∧
      s'.calls[s.calls.length]? = some (.admitEvent (admission sha256 event key) p) ∧
      p.result = some result ∧
      ((∃ o, result = .ok o) ↔ request.payload.json.noNul = true) ∧
      ((∃ e, result = .error (.database e)) ↔ request.payload.json.noNul = false) ∧
      ∀ header, idempotencyKey header = .ok key →
        let status :=
          responseStatus (ingest sha256 id now (fun _ => result) header (.ok request))
        (status = 202 ∨ status = 409 ↔ request.payload.json.noNul = true) ∧
        (status = 500 ↔ request.payload.json.noNul = false) := by
  obtain ⟨hrid, hsource, htype, hpayload, hnull⟩ := Event.new_eq_ok hevent
  set args := admission sha256 event key with hargs
  -- the call has just begun, and nothing else has changed
  set t : Database := { s with calls := s.calls ++ [.admitEvent args (.running (.begun s.clock))] }
    with ht
  have hbegin : s.step (.begin (.admitEvent args)) = some t := rfl
  have hc : t.calls[s.calls.length]? = some (.admitEvent args (.running (.begun s.clock))) := by
    simp [ht]
  have hopen : t.uncommitted = s.uncommitted := by
    simp [ht, Database.uncommitted, Call.insertedRow]
  cases hnul : request.payload.json.noNul with
  | true =>
    obtain ⟨row, hrow⟩ := admission_checkedRow_ok sha256 event key s.clock
      (hpayload ▸ hnull) (hpayload ▸ hnul)
    have hscope : args.scope = (request.source, key.expose) := by rw [← hsource]; rfl
    obtain ⟨n, o, s', hrun, hs'⟩ := Database.run_admission hrow hc
      (by rw [hopen]; exact fun r hr h => hid r hr (h.trans hrid))
      (by rw [hopen]; exact fun r hr h => hfree r hr (h.trans hscope))
    refine ⟨n, s', _, .ok o, Machine.run_cons_eq_some.mpr ⟨t, hbegin, hrun⟩, hs', rfl, by simp,
      by simp, fun header hkey => ?_⟩
    simp only [responseStatus_ingest sha256 hevent hkey]
    cases o <;> simp
  | false =>
    have hrow := admission_checkedRow_error sha256 event key s.clock (hpayload ▸ hnul)
    have h₁ : t.step (.advance s.calls.length) = some (t.setCall s.calls.length
        (.admitEvent args (.failed (.ofSqlx .untranslatableCharacter)))) := by
      rw [Database.advance_admission hc]
      simp [Database.advanceAdmit, hargs, hrow]
    refine ⟨1, _, _, .error (.database .untranslatableCharacter),
      Machine.run_cons_eq_some.mpr ⟨t, hbegin, Machine.run_cons_eq_some.mpr ⟨_, h₁, rfl⟩⟩,
      Database.getElem?_setCall hc, rfl, by simp, by simp, fun header hkey => ?_⟩
    simp only [responseStatus_ingest sha256 hevent hkey]
    simp [StoreError.isUnavailable]

end Stored

section Sample

attribute [local instance] SampleFloat.serde

/-- A valid request whose payload is a string. -/
def textRequest (text : String) : EventRequest SampleFloat :=
  ⟨"orders-api", "order.created", ⟨.str text, rfl⟩⟩

def textEvent (text : String) : Event (Value SampleFloat) :=
  ⟨⟨7⟩, .ordersApi, .orderCreated, (textRequest text).payload, 0⟩

theorem textEvent_new (text : String) :
    Event.new ⟨7⟩ 0 (textRequest text).source (textRequest text).eventType
      (textRequest text).payload = .ok (textEvent text) :=
  Event.new_ok ⟨7⟩ 0 (textEvent text).source (textEvent text).eventType rfl

def textAdmission (text : String) : AdmitArgs :=
  admission (fun _ => .zero) (textEvent text) .short

/-- A string of one U+0000 passes validation, and the response is `500`. -/
theorem nul_payload_not_stored :
    Event.new ⟨7⟩ 0 (textRequest "\x00").source (textRequest "\x00").eventType
      (textRequest "\x00").payload = .ok (textEvent "\x00") ∧
    (Machine.run Database.step (.empty 0)
      [.begin (.admitEvent (textAdmission "\x00")), .advance 0]).map (fun s => s.calls) =
      some [.admitEvent (textAdmission "\x00") (.failed (.database .untranslatableCharacter))] ∧
    responseStatus (ingest (fun _ => .zero) ⟨7⟩ 0
      (fun _ => .error (.database .untranslatableCharacter)) (some ⟨some "k"⟩)
      (.ok (textRequest "\x00"))) = 500 :=
  ⟨textEvent_new _, by decide, by decide⟩

/-- The same request with the string `ok` is stored in an empty database. -/
theorem admit_stored_sample :
    ∃ n s' p o,
      Machine.run Database.step (.empty 0) (.begin (.admitEvent (textAdmission "ok")) ::
        List.replicate n (.advance 0)) = some s' ∧
      s'.calls[0]? = some (.admitEvent (textAdmission "ok") p) ∧ p.result = some (.ok o) := by
  have hnone : ∀ r ∈ (Database.empty 0).events ++ (Database.empty 0).uncommitted,
      r.eventId ≠ ⟨7⟩ := by
    simp [Database.empty, Database.uncommitted]
  have hfree : ∀ r ∈ (Database.empty 0).uncommitted,
      r.scope ≠ ((textRequest "ok").source, "k") := by
    simp [Database.empty, Database.uncommitted]
  obtain ⟨n, s', p, result, hrun, hc, hp, hok, -⟩ :=
    admit_stored_iff (fun _ => .zero) .short (textEvent_new "ok") hnone hfree
  obtain ⟨o, rfl⟩ := hok.mpr (by decide)
  exact ⟨n, s', p, o, hrun, hc, hp⟩

end Sample

end PulseStream
