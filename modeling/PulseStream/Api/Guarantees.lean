import PulseStream.Api.Service
import PulseStream.Store.Progress

/-!
# What clients can rely on

Over all runs of requests, workers and failures. Two accepted requests have the same event exactly
if they have the same source and key, and then they are the same request unless their hashes
collide (`same_event_iff`). A conflict is never wrong (`conflict_justified`). Every row comes from
exactly one request, which was not told otherwise (`events_from_posts`). An accepted event can be
read under its id from then on (`accepted_readable`). A request that was not answered, or answered
with an error of the store, can be sent again (`retry_answered`). Events whose payloads can be read
can be processed (`accepted_processed`).
-/

namespace PulseStream

open Machine

theorem IdempotencyKey.ext {k k' : IdempotencyKey} (h : k.expose = k'.expose) : k = k' := by
  cases k
  cases k'
  cases h
  rfl

theorem Database.Reachable.created_own {db : Database} (h : db.Reachable) {c : ℕ} {args : AdmitArgs}
    {p : Progress AdmitStage AdmitOutcome} {id : EventId}
    (hc : db.calls[c]? = some (.admitEvent args p)) (hp : p.answer = some (.created id)) :
    id = args.eventId := by
  obtain ⟨row, hwritten, rfl⟩ := h.outcome_written hc hp
  have hlog := (mem_written.mp
    (hwritten ▸ List.mem_singleton.mpr rfl : _ ∈ db.written c)).1
  obtain ⟨args', p', now, hc', hrow⟩ := h.insert_admitted hlog
  obtain ⟨rfl, -⟩ := Call.admitEvent.inj (Option.some.inj (hc'.symm.trans hc))
  exact (AdmitArgs.checkedRow_key hrow).2

namespace Service

theorem scope_inj {F : Type} {event event' : Event (Value F)} {key key' : IdempotencyKey}
    (h : (event.source.asStr, key.expose) = (event'.source.asStr, key'.expose)) :
    event.source = event'.source ∧ key = key' := by
  obtain ⟨hsource, hkey⟩ := Prod.mk.inj h
  exact ⟨Label.ext hsource, IdempotencyKey.ext hkey⟩

section Retries

variable {F : Type} [SerdeJson F] {sha256 : List UInt8 → RequestFingerprint} {s s' : Service F}
  {i j : ℕ} {post q : Post F} {event event' : Event (Value F)} {key key' : IdempotencyKey}
  {a b : AcceptedResponse}

/-! ## Answers and rows -/

theorem Reachable.told (h : s.Reachable sha256) (hpost : post ∈ s.posts)
    (hv : post.submission.validate = .ok (event, key))
    {response : Except ApiError AcceptedResponse} (hresponse : post.response = some response)
    (hnot : ∀ e, response ≠ .error (storeError e)) :
    ∃ c o, post.call = some c ∧ response = respond o ∧
      s.system.db.calls[c]? = some (.admitEvent (admission sha256 event key) (.returned o)) := by
  cases h.consistent.backed post hpost with
  | refused hv' hcall hresponse' => cases hv.symm.trans hv'
  | admitted hv' hcall hc htells =>
    obtain ⟨rfl, rfl⟩ := Prod.mk.inj (Except.ok.inj (hv.symm.trans hv'))
    rcases htells response hresponse with ⟨o, rfl, ho⟩ | ⟨e, he⟩
    · exact ⟨_, o, hcall, ho, hc⟩
    · exact absurd he (hnot e)

theorem Reachable.accepted (h : s.Reachable sha256) (hpost : post ∈ s.posts)
    (hv : post.submission.validate = .ok (event, key)) (ha : post.response = some (.ok a)) :
    ∃ c o, post.call = some c ∧
      s.system.db.calls[c]? = some (.admitEvent (admission sha256 event key) (.returned o)) ∧
      (a.replayed = false ∧ o = .created a.eventId ∨
        a.replayed = true ∧ o = .replayed a.eventId) := by
  obtain ⟨c, o, hcall, ho, hc⟩ := h.told hpost hv ha fun e he => (by cases he)
  refine ⟨c, o, hcall, hc, ?_⟩
  cases o with
  | created id =>
    obtain rfl := Except.ok.inj ho
    exact .inl ⟨rfl, rfl⟩
  | replayed id =>
    obtain rfl := Except.ok.inj ho
    exact .inr ⟨rfl, rfl⟩
  | conflict => cases ho

theorem Reachable.accepted_row (h : s.Reachable sha256) (hpost : post ∈ s.posts)
    (hv : post.submission.validate = .ok (event, key)) (ha : post.response = some (.ok a)) :
    ∃ r ∈ s.system.db.events, r.eventId = a.eventId ∧
      r.scope = (event.source.asStr, key.expose) ∧
      r.requestFingerprint = (admission sha256 event key).requestFingerprint ∧
      (a.replayed = false → r.eventType = event.eventType.asStr) := by
  have hdb := h.system.db
  obtain ⟨c, o, -, hc, ho⟩ := h.accepted hpost hv ha
  obtain ⟨r, hr, hid, hscope, hreplayed⟩ := hdb.answered_row hc rfl (ho.imp And.right And.right)
  refine ⟨r, hr, hid, hscope, ?_⟩
  rcases ho with ⟨hnew, rfl⟩ | ⟨hold, rfl⟩
  · -- the row has the parameters of the admission that created it
    obtain ⟨args, hargs, -, htype, -, hfingerprint⟩ := hdb.row_admitted hr
    rw [hid] at hargs
    obtain rfl := hdb.created_admitted hc rfl hargs
    exact ⟨hfingerprint, fun _ => htype⟩
  · exact ⟨hreplayed rfl, fun hnew => absurd (hnew.symm.trans hold) (by decide)⟩

theorem Reachable.validated (h : s.Reachable sha256) (hpost : post ∈ s.posts)
    (ha : post.response = some (.ok a)) :
    ∃ event key, post.submission.validate = .ok (event, key) := by
  cases h.consistent.backed post hpost with
  | refused hv hcall hresponse => cases ha.symm.trans hresponse
  | admitted hv hcall hc htells => exact ⟨_, _, hv⟩

theorem Reachable.new_call (h : s.Reachable sha256) (hpost : post ∈ s.posts)
    (ha : post.response = some (.ok a)) (hnew : a.replayed = false) {w : Write}
    (hlog : w ∈ s.system.db.log) (hop : w.op = .insert) (hid : w.row.eventId = a.eventId) :
    post.call = some w.call := by
  obtain ⟨event, key, hv⟩ := h.validated hpost ha
  obtain ⟨c, o, hcall, hc, ho⟩ := h.accepted hpost hv ha
  rcases ho with ⟨-, rfl⟩ | ⟨hold, -⟩
  · obtain ⟨row, heq, hrow⟩ := h.system.db.outcome_written hc rfl
    have hlog' := (Database.mem_written.mp
      (heq ▸ List.mem_singleton.mpr rfl : _ ∈ s.system.db.written c)).1
    have hsame := h.system.db.insert_unique hlog' hlog rfl hop (hrow.trans hid.symm)
    exact hcall.trans (congrArg (fun w : Write => some w.call) hsame)
  · exact absurd (hnew.symm.trans hold) (by decide)

theorem Reachable.new_unique (h : s.Reachable sha256) (hi : s.posts[i]? = some post)
    (hj : s.posts[j]? = some q) (ha : post.response = some (.ok a))
    (hb : q.response = some (.ok b)) {r : Row} (hr : r ∈ s.system.db.events)
    (hid : r.eventId = a.eventId) (hid' : r.eventId = b.eventId) (hnew : a.replayed = false)
    (hnew' : b.replayed = false) : i = j := by
  obtain ⟨w, -, -, -, hlog, hop, -, -, hcontent, -⟩ := h.system.db.inserted_by hr
  have hw : w.row.eventId = r.eventId := (congrArg Content.eventId hcontent).symm
  exact h.consistent.calls i j post q w.call hi hj
    (h.new_call (List.mem_of_getElem? hi) ha hnew hlog hop (hw.trans hid))
    (h.new_call (List.mem_of_getElem? hj) hb hnew' hlog hop (hw.trans hid'))

/-! ## Retries -/

/-- The bytes that were hashed for the requests. -/
def inputs (s : Service F) : List (List UInt8) :=
  s.posts.filterMap fun post => post.submission.validate.toOption.map fun v =>
    fingerprintInput v.1.source v.1.eventType v.1.payload

/-- No two requests have different bytes with the same hash. -/
def CollisionFree (sha256 : List UInt8 → RequestFingerprint) (s : Service F) : Prop :=
  ∀ x ∈ s.inputs, ∀ y ∈ s.inputs, (sha256 x).asBytes = (sha256 y).asBytes → x = y

instance (s : Service F) : Decidable (s.CollisionFree sha256) :=
  inferInstanceAs (Decidable (∀ x ∈ s.inputs, ∀ y ∈ s.inputs, _ → x = y))

theorem mem_inputs (hpost : post ∈ s.posts) (hv : post.submission.validate = .ok (event, key)) :
    fingerprintInput event.source event.eventType event.payload ∈ s.inputs :=
  List.mem_filterMap.mpr ⟨post, hpost, by rw [hv]; rfl⟩

/-- **Same event.** Two accepted requests were given the same event exactly if they have the same
source and key. Then at most one of them was told that the event is new, and unless their hashes
collide they are the same request, up to the order of members in the payload. -/
theorem same_event_iff (h : s.Reachable sha256) (hi : s.posts[i]? = some post)
    (hj : s.posts[j]? = some q) (hv : post.submission.validate = .ok (event, key))
    (hv' : q.submission.validate = .ok (event', key')) (ha : post.response = some (.ok a))
    (hb : q.response = some (.ok b)) :
    (a.eventId = b.eventId ↔ event.source = event'.source ∧ key = key') ∧
    (a.eventId = b.eventId → a.replayed = false → b.replayed = false → i = j) ∧
    (a.eventId = b.eventId → s.CollisionFree sha256 → event.eventType = event'.eventType ∧
      event.payload.json.Equiv event'.payload.json) := by
  have hsound := h.system.db.sound
  obtain ⟨r, hr, hid, hscope, hfingerprint, -⟩ := h.accepted_row (List.mem_of_getElem? hi) hv ha
  obtain ⟨r', hr', hid', hscope', hfingerprint', -⟩ :=
    h.accepted_row (List.mem_of_getElem? hj) hv' hb
  have hsame : a.eventId = b.eventId → r = r' := by
    intro heq
    exact hsound.eq_of_id hr hr' ((hid.trans heq).trans hid'.symm)
  refine ⟨⟨fun heq => ?_, ?_⟩, fun heq => ?_, fun heq hhash => ?_⟩
  · obtain rfl := hsame heq
    exact scope_inj (hscope.symm.trans hscope')
  · rintro ⟨hsource, rfl⟩
    have hrow := hsound.eq_of_scope hr hr' (by rw [hscope, hscope', hsource])
    rw [← hid, hrow, hid']
  · obtain rfl := hsame heq
    exact h.new_unique hi hj ha hb hr hid hid'
  · obtain rfl := hsame heq
    have hbytes := hhash _ (mem_inputs (List.mem_of_getElem? hi) hv) _
      (mem_inputs (List.mem_of_getElem? hj) hv') (hfingerprint.symm.trans hfingerprint')
    obtain ⟨-, htype, htext⟩ := (fingerprintInput_parts _ _ _ _ _ _).mp hbytes
    exact ⟨htype, (canonicalText_eq_iff _ _).mp htext⟩

end Retries

section Orders

attribute [local instance] SampleFloat.serde

/-- A hash for sample runs: the last 32 bytes. -/
def lastBytes (bytes : List UInt8) : RequestFingerprint :=
  ⟨(bytes.reverse ++ List.replicate 32 0).take 32, by simp⟩

/-- An order with the key `k`. -/
def order (id : ℕ) (isUuid : id < 2 ^ 128) (payload : Value SampleFloat) : Submission SampleFloat :=
  ⟨some ⟨some "k"⟩, .ok ⟨"orders-api", "order.created", payload⟩, ⟨id⟩, 0, isUuid⟩

def sampleOrder : Value SampleFloat := ⟨.obj [("a", .bool true), ("b", .null)], by decide⟩

/-- An order, the same order with its members the other way round, and another one under the same
key. -/
def orders : List (ServiceAct SampleFloat) :=
  [.post (order 7 (by decide) sampleOrder),
    .post (order 8 (by decide) ⟨.obj [("b", .null), ("a", .bool true)], by decide⟩),
    .post (order 9 (by decide) ⟨.obj [("a", .bool false)], by decide⟩),
    .system (.store (.advance 0)), .system (.store (.advance 0)), .system (.store (.advance 1)),
    .system (.store (.advance 2)), .system (.store (.advance 1)), .system (.store (.advance 2)),
    .system (.store (.advance 1)), .system (.store (.advance 2)), .reply 2, .reply 1, .reply 0]

end Orders

/-- What sample runs show of a request that passed validation. -/
structure Seen (F : Type) where
  key : String
  payload : Json (Number F)
  response : Option (Except ApiError AcceptedResponse)
  deriving DecidableEq

def seen {F : Type} (s : Service F) (i : ℕ) : Option (Seen F) :=
  s.posts[i]?.bind fun post => post.submission.validate.toOption.map fun v =>
    ⟨v.2.expose, v.1.payload.json, post.response⟩

theorem seen_eq_some {F : Type} {s : Service F} {i : ℕ} {x : Seen F} (h : s.seen i = some x) :
    ∃ post event key, s.posts[i]? = some post ∧
      post.submission.validate = .ok (event, key) ∧ event.payload.json = x.payload ∧
      post.response = x.response := by
  obtain ⟨post, hi, h⟩ := Option.bind_eq_some_iff.mp h
  obtain ⟨v, hv, rfl⟩ := Option.map_eq_some_iff.mp h
  refine ⟨post, v.1, v.2, hi, ?_, rfl, rfl⟩
  cases hvalid : post.submission.validate with
  | error e =>
    rw [hvalid] at hv
    cases hv
  | ok v' =>
    rw [hvalid] at hv
    cases hv
    rfl

section Orders

attribute [local instance] SampleFloat.serde

/-- The reordered order is given the first one's event. -/
theorem same_event_iff_orders :
    ∃ (s : Service SampleFloat) (post q : Post SampleFloat)
      (event event' : Event (Value SampleFloat)),
      run (step lastBytes) (empty 0) orders = some s ∧
      s.posts[0]? = some post ∧ s.posts[1]? = some q ∧
      post.response = some (.ok ⟨⟨7⟩, false⟩) ∧ q.response = some (.ok ⟨⟨7⟩, true⟩) ∧
      event.payload.json = .obj [("a", .bool true), ("b", .null)] ∧
      event'.payload.json = .obj [("b", .null), ("a", .bool true)] ∧
      event.payload.json.Equiv event'.payload.json := by
  have hrun : (run (step lastBytes) (empty 0) orders).map (fun s =>
      (decide (s.CollisionFree lastBytes), s.seen 0, s.seen 1)) =
      some (true,
        some ⟨"k", .obj [("a", .bool true), ("b", .null)], some (.ok ⟨⟨7⟩, false⟩)⟩,
        some ⟨"k", .obj [("b", .null), ("a", .bool true)], some (.ok ⟨⟨7⟩, true⟩)⟩) := by
    decide +kernel
  obtain ⟨s, hs, hobs⟩ := Option.map_eq_some_iff.mp hrun
  obtain ⟨hfree, hobs⟩ := Prod.mk.inj hobs
  obtain ⟨hseen, hseen'⟩ := Prod.mk.inj hobs
  obtain ⟨post, event, key, hi, hv, hpayload, ha⟩ := seen_eq_some hseen
  obtain ⟨q, event', key', hj, hv', hpayload', hb⟩ := seen_eq_some hseen'
  have hsame :=
    (same_event_iff ⟨0, _, hs⟩ hi hj hv hv' ha hb).2.2 rfl (of_decide_eq_true hfree)
  exact ⟨s, post, q, event, event', hs, hi, hj, ha, hb, hpayload, hpayload', hsame.2⟩

end Orders

section Rows

variable {F : Type} [SerdeJson F] {sha256 : List UInt8 → RequestFingerprint} {s s' : Service F}
  {i j : ℕ} {post q : Post F} {event event' : Event (Value F)} {key key' : IdempotencyKey}
  {a b : AcceptedResponse}

/-! ## Where rows come from -/

theorem Reachable.row_posted (h : s.Reachable sha256) {r : Row}
    (hr : r ∈ s.system.db.events) :
    ∃ (i : ℕ) (w : Write) (post : Post F) (event : Event (Value F)) (key : IdempotencyKey)
      (p : Progress AdmitStage AdmitOutcome),
      s.posts[i]? = some post ∧ post.call = some w.call ∧
      post.submission.validate = .ok (event, key) ∧ r.eventId = post.submission.id ∧
      s.system.db.calls[w.call]? = some (.admitEvent (admission sha256 event key) p) ∧
      (∀ response ∈ post.response, p.Tells response) ∧
      (w ∈ s.system.db.log ∧ w.op = .insert ∧ r.toContent = w.row.toContent) ∧
      ∃ now, (admission sha256 event key).checkedRow now = .ok w.row := by
  obtain ⟨w, args, p, now, hlog, hop, hc, hrow, hcontent, -⟩ := h.system.db.inserted_by hr
  obtain ⟨i, post, event, key, hi, hcall, hv, rfl, htells⟩ := h.posted hc
  have hid : r.eventId = event.id :=
    (congrArg Content.eventId hcontent).trans (AdmitArgs.checkedRow_key hrow).2
  exact ⟨i, w, post, event, key, p, hi, hcall, hv, hid.trans (Submission.event_id hv), hc, htells,
    ⟨hlog, hop, hcontent⟩, now, hrow⟩

/-- **No wrong conflict.** Behind every `409` is an event of the same source and key that a
different request has stored. -/
theorem conflict_justified (h : s.Reachable sha256) (hi : s.posts[i]? = some post)
    (hv : post.submission.validate = .ok (event, key))
    (hconflict : post.response = some (.error .idempotencyConflict)) :
    ∃ r ∈ s.system.db.events, r.scope = (event.source.asStr, key.expose) ∧
      ∃ (j : ℕ) (q : Post F) (event' : Event (Value F)),
      s.posts[j]? = some q ∧ q.submission.validate = .ok (event', key) ∧
      event'.id = r.eventId ∧ event'.source = event.source ∧
      ¬ (event'.eventType = event.eventType ∧
        event'.payload.json.Equiv event.payload.json) := by
  have hdb := h.system.db
  have hnot : ∀ e, (.error .idempotencyConflict : Except ApiError AcceptedResponse) ≠
      .error (storeError e) := by
    intro e he
    unfold storeError at he
    split_ifs at he <;> cases he
  obtain ⟨c, o, -, ho, hc⟩ := h.told (List.mem_of_getElem? hi) hv hconflict hnot
  obtain rfl : o = .conflict := by
    cases o with
    | conflict => rfl
    | created id | replayed id => cases ho
  obtain ⟨r, hr, hscope, hfingerprint⟩ := hdb.outcome_holds hc rfl
  obtain ⟨j, w, q, event', key', p, hj, -, hv', hid, -, -, ⟨-, -, hcontent⟩, now, hrow⟩ :=
    h.row_posted hr
  obtain ⟨-, -, payload, -, hrow⟩ := AdmitArgs.checkedRow_eq_ok.mp hrow
  rw [hrow] at hcontent
  obtain ⟨hsource, rfl⟩ : event'.source = event.source ∧ key' = key :=
    scope_inj ((congrArg Content.scope hcontent).symm.trans hscope)
  refine ⟨r, hr, hscope, j, q, event', hj, hv', (Submission.event_id hv').trans hid.symm,
    hsource, ?_⟩
  rintro ⟨htype, hpayload⟩
  apply hfingerprint
  have hbytes : (admission sha256 event' key').requestFingerprint =
      (admission sha256 event key').requestFingerprint := by
    refine congrArg (fun bytes => (sha256 bytes).asBytes) ?_
    exact (fingerprintInput_parts _ _ _ _ _ _).mpr
      ⟨hsource, htype, (canonicalText_eq_iff _ _).mpr hpayload⟩
  exact (congrArg Content.requestFingerprint hcontent).trans hbytes

end Rows

section Orders

attribute [local instance] SampleFloat.serde

/-- The third order differs from the first one, whose event has the key. -/
theorem conflict_justified_orders :
    ∃ (s : Service SampleFloat) (post : Post SampleFloat),
      run (step lastBytes) (empty 0) orders = some s ∧ s.posts[2]? = some post ∧
      post.response = some (.error .idempotencyConflict) ∧
      ∃ r ∈ s.system.db.events, ∃ (j : ℕ) (q : Post SampleFloat)
        (event' : Event (Value SampleFloat)) (key : IdempotencyKey), s.posts[j]? = some q ∧
        q.submission.validate = .ok (event', key) ∧ event'.id = r.eventId := by
  have hrun : (run (step lastBytes) (empty 0) orders).map (·.seen 2) =
      some (some ⟨"k", .obj [("a", .bool false)], some (.error .idempotencyConflict)⟩) := by
    decide +kernel
  obtain ⟨s, hs, hseen⟩ := Option.map_eq_some_iff.mp hrun
  obtain ⟨post, event, key, hi, hv, -, hconflict⟩ := seen_eq_some hseen
  obtain ⟨r, hr, -, j, q, event', hj, hv', hid, -⟩ :=
    conflict_justified ⟨0, _, hs⟩ hi hv hconflict
  exact ⟨s, post, hs, hi, hconflict, r, hr, j, q, event', key, hj, hv', hid⟩

end Orders

section Origin

variable {F : Type} [SerdeJson F] {sha256 : List UInt8 → RequestFingerprint} {s s' : Service F}
  {i j : ℕ} {post q : Post F} {event event' : Event (Value F)} {key key' : IdempotencyKey}
  {a b : AcceptedResponse}

/-- **No phantom events.** Every row has one INSERT, and was stored for the one request whose
admission made it, which passed validation, under the id made for it. That request was told that the
event is new, or of an error of the store, or nothing yet; and no other request was told that the
event is new. -/
theorem events_from_posts (h : s.Reachable sha256) {r : Row} (hr : r ∈ s.system.db.events) :
    ∃ (i : ℕ) (post : Post F) (event : Event (Value F)) (key : IdempotencyKey),
      s.posts[i]? = some post ∧ post.submission.validate = .ok (event, key) ∧
      r.eventId = post.submission.id ∧ r.source = event.source.asStr ∧
      r.eventType = event.eventType.asStr ∧ r.idempotencyKey = key.expose ∧
      jsonbIn (event.payload.json.map Number.token) = some r.payload ∧
      (∃ w ∈ s.system.db.log, (∀ w' ∈ s.system.db.log, w'.op = .insert →
        w'.row.eventId = r.eventId → w' = w) ∧ w.op = .insert ∧ w.row.eventId = r.eventId ∧
        ∀ (j : ℕ) (q : Post F), s.posts[j]? = some q → (q.call = some w.call ↔ j = i)) ∧
      (∀ response ∈ post.response,
        response = .ok ⟨r.eventId, false⟩ ∨ ∃ e, response = .error (storeError e)) ∧
      ∀ (j : ℕ) (q : Post F), s.posts[j]? = some q →
        q.response = some (.ok ⟨r.eventId, false⟩) → j = i := by
  have hdb := h.system.db
  obtain ⟨i, w, post, event, key, p, hi, hcall, hv, hown, hc, htells, ⟨hlog, hop, hcontent⟩, now,
    hrow⟩ := h.row_posted hr
  have hwritten : w ∈ s.system.db.written w.call := Database.mem_written.mpr ⟨hlog, rfl⟩
  have hid : r.eventId = w.row.eventId := congrArg Content.eventId hcontent
  obtain ⟨-, -, payload, hpayload, hrow⟩ := AdmitArgs.checkedRow_eq_ok.mp hrow
  rw [hrow] at hcontent
  refine ⟨i, post, event, key, hi, hv, hown, congrArg Content.source hcontent,
    congrArg Content.eventType hcontent, congrArg Content.idempotencyKey hcontent, ?_,
    ⟨w, hlog, fun w' hw' hop' hid' => ?_, hop, hid.symm, fun j q hj => ⟨fun hq => ?_, ?_⟩⟩,
    fun response hresponse => ?_, fun j q hj hq => ?_⟩
  · have hstored : r.payload = payload := congrArg Content.payload hcontent
    exact hstored ▸ hpayload
  · exact hdb.insert_unique hw' hlog hop' hop (hid'.trans hid)
  · exact h.consistent.calls j i q post _ hj hi hq hcall
  · rintro rfl
    obtain rfl := Option.some.inj (hj.symm.trans hi)
    exact hcall
  · rcases htells response hresponse with ⟨o, rfl, rfl⟩ | herror
    · -- a call that was answered otherwise has written nothing
      have hout := hdb.outcome_written hc rfl
      cases o with
      | created id =>
        obtain ⟨row', heq, rfl⟩ := hout
        rw [heq, List.mem_singleton] at hwritten
        rw [hid, hwritten]
        exact .inl rfl
      | replayed id | conflict =>
        simp only at hout
        rw [hout] at hwritten
        cases hwritten
    · exact .inr herror
  · have hcall' := h.new_call (List.mem_of_getElem? hj) hq rfl hlog hop hid.symm
    exact h.consistent.calls j i q post _ hj hi hcall' hcall

end Origin

section Orders

attribute [local instance] SampleFloat.serde

/-- Of the three orders one is stored. -/
theorem events_from_posts_orders :
    ∃ s : Service SampleFloat, run (step lastBytes) (empty 0) orders = some s ∧
      s.system.db.events.map (·.eventId) = [⟨7⟩] ∧
      ∀ r ∈ s.system.db.events, ∃ (i : ℕ) (post : Post SampleFloat),
        s.posts[i]? = some post ∧ r.eventId = post.submission.id := by
  have hrun : (run (step lastBytes) (empty 0) orders).map
      (fun s => s.system.db.events.map (·.eventId)) = some [⟨7⟩] := by decide +kernel
  obtain ⟨s, hs, hids⟩ := Option.map_eq_some_iff.mp hrun
  refine ⟨s, hs, hids, fun r hr => ?_⟩
  obtain ⟨i, post, -, -, hi, -, hid, -⟩ := events_from_posts ⟨0, _, hs⟩ hr
  exact ⟨i, post, hi, hid⟩

end Orders

/-! ## Reading -/

section Reading

variable {F : Type} [SerdeJson F] [UuidText] {sha256 : List UInt8 → RequestFingerprint}
  {s s' : Service F} {i j : ℕ} {post q : Post F} {event event' : Event (Value F)}
  {key key' : IdempotencyKey} {a b : AcceptedResponse}

/-- The id in a `202` was made for a request, so its text can be read back. -/
theorem Reachable.parse_accepted (h : s.Reachable sha256) (hpost : post ∈ s.posts)
    (ha : post.response = some (.ok a)) : EventId.parse a.eventId.display = some a.eventId := by
  obtain ⟨event, key, hv⟩ := h.validated hpost ha
  obtain ⟨r, hr, hid, -⟩ := h.accepted_row hpost hv ha
  obtain ⟨-, -, p, -, -, -, -, -, -, hown, -⟩ := h.row_posted hr
  have hsame : a.eventId = p.submission.id := hid.symm.trans hown
  exact EventId.parse_display (hsame ▸ p.submission.isUuid)

/-- **Accepted events can be read.** From the `202` on, every text of the event's id, and the one in
the response in particular, leads to the event; the source is that of the request, and so is the
type if the event is new. A later read differs in the status and the time of processing at most, and
not at all once the event is processed. -/
theorem accepted_readable (toChar : Timestamp → String) (h : s.Reachable sha256)
    (hi : s.posts[i]? = some post) (hv : post.submission.validate = .ok (event, key))
    (ha : post.response = some (.ok a)) {s₁ s₂ : Service F}
    (hrun₁ : Reaches (step sha256) s s₁) (hrun₂ : Reaches (step sha256) s₁ s₂) :
    EventId.parse a.eventId.display = some a.eventId ∧
    ∃ v₁ v₂ : EventStatusResponse,
      (∀ path, EventId.parse path = some a.eventId →
        getEvent (s₁.system.db.get toChar) path = .ok v₁ ∧
        getEvent (s₂.system.db.get toChar) path = .ok v₂) ∧
      v₁.eventId = a.eventId.display ∧ v₁.source = event.source.asStr ∧
      (a.replayed = false → v₁.eventType = event.eventType.asStr) ∧
      v₂ = { v₁ with status := v₂.status, processedAt := v₂.processedAt } ∧
      (v₁.status = "processed" → v₂ = v₁) := by
  have h₁ := h.trans hrun₁
  have h₂ := h₁.trans hrun₂
  obtain ⟨r, hr, hid, hscope, -, htype⟩ := h.accepted_row (List.mem_of_getElem? hi) hv ha
  obtain ⟨r₁, hr₁, hlater₁⟩ := h.system.db.later (System.reaches_db (reaches_system hrun₁)) hr
  obtain ⟨r₂, hr₂, hlater₂⟩ := h₁.system.db.later (System.reaches_db (reaches_system hrun₂)) hr₁
  have hid₁ : r₁.eventId = a.eventId := (congrArg Content.eventId hlater₁.content).trans hid
  have hid₂ : r₂.eventId = r₁.eventId := congrArg Content.eventId hlater₂.content
  refine ⟨h.parse_accepted (List.mem_of_getElem? hi) ha, r₁.view toChar, r₂.view toChar,
    fun path hpath => ⟨?_, ?_⟩, ?_, ?_, ?_, ?_, ?_⟩
  · exact getEvent_of_mem toChar h₁.system.db.sound hr₁ (hpath.trans (congrArg some hid₁.symm))
  · exact getEvent_of_mem toChar h₂.system.db.sound hr₂
      (hpath.trans (congrArg some (hid₂.trans hid₁).symm))
  · exact congrArg EventId.display hid₁
  · exact (congrArg Content.source hlater₁.content).trans (Prod.mk.inj hscope).1
  · exact fun hnew => (congrArg Content.eventType hlater₁.content).trans (htype hnew)
  · have hsource : r₂.source = r₁.source := congrArg Content.source hlater₂.content
    have htype₂ : r₂.eventType = r₁.eventType := congrArg Content.eventType hlater₂.content
    have haccepted : r₂.acceptedAt = r₁.acceptedAt := congrArg Content.acceptedAt hlater₂.content
    simp only [Row.view, EventRecord.response, hid₂, hsource, htype₂, haccepted]
  · intro hdone
    have hstatus : r₁.status = .processed := by
      cases hs : r₁.status with
      | processed => rfl
      | pending | processing =>
        simp [Row.view, EventRecord.response, hs, EventStatus.asApiStr] at hdone
    rw [hlater₂.final hstatus]

end Reading

section Orders

attribute [local instance] SampleFloat.serde Uuid.hyphenated

/-- A worker claims the event of `orders`. -/
def ordersClaimed : List (ServiceAct SampleFloat) :=
  [.system (.start ⟨1⟩ ⟨1, 10⟩), .system (.worker 0 (.claimSent 3)), .system (.store (.advance 3)),
    .system (.store (.advance 3)), .system (.store (.advance 3))]

/-- The second order's client reads the first one's event, before and after it is claimed. -/
theorem accepted_readable_orders :
    ∃ (s s' : Service SampleFloat) (v v' : EventStatusResponse),
      run (step lastBytes) (empty 0) orders = some s ∧
      run (step lastBytes) s ordersClaimed = some s' ∧
      getEvent (s.system.db.get toString) "00000000-0000-0000-0000-000000000007" = .ok v ∧
      getEvent (s'.system.db.get toString) "00000000-0000-0000-0000-000000000007" = .ok v' ∧
      v.status = "pending" ∧ v'.status = "processing" ∧
      v' = { v with status := v'.status, processedAt := v'.processedAt } := by
  have hrun : (run (step lastBytes) (empty 0) orders).bind (fun s =>
      (run (step lastBytes) s ordersClaimed).map fun s' =>
        (s.seen 1, (getEvent (s.system.db.get toString)
          "00000000-0000-0000-0000-000000000007").toOption.map (·.status),
        (getEvent (s'.system.db.get toString)
          "00000000-0000-0000-0000-000000000007").toOption.map (·.status))) =
      some (some ⟨"k", .obj [("b", .null), ("a", .bool true)], some (.ok ⟨⟨7⟩, true⟩)⟩,
        some "pending", some "processing") := by
    decide +kernel
  obtain ⟨s, hs, hobs⟩ := Option.bind_eq_some_iff.mp hrun
  obtain ⟨s', hs', hobs⟩ := Option.map_eq_some_iff.mp hobs
  obtain ⟨hseen, hobs⟩ := Prod.mk.inj hobs
  obtain ⟨hstatus, hstatus'⟩ := Prod.mk.inj hobs
  obtain ⟨post, event, key, hi, hv, -, ha⟩ := seen_eq_some hseen
  obtain ⟨-, v, v', hread, -, -, -, hsame, -⟩ :=
    accepted_readable toString ⟨0, _, hs⟩ hi hv ha (.refl s) ⟨_, hs'⟩
  obtain ⟨hget, hget'⟩ := hread "00000000-0000-0000-0000-000000000007" (by decide +kernel)
  rw [hget] at hstatus
  rw [hget'] at hstatus'
  exact ⟨s, s', v, v', hs, hs', hget, hget', Option.some.inj hstatus, Option.some.inj hstatus',
    hsame⟩

end Orders

/-! ## Sending a request again -/

theorem uncommitted_of_settled {db : Database} (h : db.Settled) : db.uncommitted = [] := by
  refine List.filterMap_eq_nil_iff.mpr fun call hcall => ?_
  have hover := h call hcall
  cases hrow : call.insertedRow with
  | none => rfl
  | some row =>
    unfold Call.insertedRow at hrow
    split at hrow
    · cases hover
    · cases hrow

section Again

variable {F : Type} [SerdeJson F] {sha256 : List UInt8 → RequestFingerprint} {s s' : Service F}
  {i j : ℕ} {post q : Post F} {event event' : Event (Value F)} {key key' : IdempotencyKey}
  {a b : AcceptedResponse}

theorem reaches_advances {cs : List ℕ} {db : Database}
    (h : run Database.step s.system.db (cs.map .advance) = some db) :
    Reaches (step sha256) s ⟨{ s.system with db := db }, s.posts⟩ := by
  induction cs generalizing s with
  | nil =>
    obtain rfl := Option.some.inj h
    exact .refl s
  | cons c cs ih =>
    obtain ⟨db', hdb', hrun⟩ := run_cons_eq_some.mp h
    have hstep : step sha256 s (.system (.store (.advance c))) =
        some ⟨{ s.system with db := db' }, s.posts⟩ := by
      simp [step, SystemAct.isHandlers, System.step, Database.onItsOwn, hdb']
    exact (Reaches.single hstep).trans (ih hrun)

theorem settles (s : Service F) :
    ∃ s', Reaches (step sha256) s s' ∧ s'.posts = s.posts ∧ s'.system.db.Settled := by
  obtain ⟨db, ⟨cs, hcs⟩, -, hsettled⟩ := Database.converges.finishes (s := s.system.db) trivial
  exact ⟨_, reaches_advances ((Database.run_advance s.system.db cs).symm.trans hcs), rfl, hsettled⟩

theorem step_reply {c : ℕ} {args : AdmitArgs} {o : AdmitOutcome} (hi : s.posts[i]? = some post)
    (hc : post.awaits = some c)
    (hcall : s.system.db.calls[c]? = some (.admitEvent args (.committed o))) :
    step sha256 s (.reply i) = some
      ⟨{ s.system with db := s.system.db.setCall c (.admitEvent args (.returned o)) },
        s.posts.set i (post.answer sha256 (.ok o))⟩ := by
  simp [step, hi, hc, hcall, System.step, Database.onItsOwn, Database.step, Call.signal,
    Progress.signal]

/-- With no open transaction, a request with a fresh id and a payload that can be stored is
admitted in a few steps. -/
theorem Reachable.admits (h : s.Reachable sha256) (hsettled : s.system.db.Settled)
    {r : Submission F} (hv : r.validate = .ok (event, key))
    (hnul : event.payload.json.noNul = true) (hfresh : ∀ p ∈ s.posts, p.submission.id ≠ r.id) :
    ∃ (s' : Service F) (c : ℕ) (o : AdmitOutcome), Reaches (step sha256) s s' ∧
      s'.posts = s.posts ++ [⟨r, some c, none⟩] ∧
      s'.system.db.calls[c]? =
        some (.admitEvent (admission sha256 event key) (.committed o)) := by
  set args := admission sha256 event key with hargs
  set begun : Database := { s.system.db with
    calls := s.system.db.calls ++ [(Request.admitEvent args).start s.system.db.clock] } with hbegun
  set s₁ : Service F := ⟨{ s.system with db := begun },
    s.posts ++ [⟨r, some s.system.db.calls.length, none⟩]⟩ with hs₁
  have hpost : step sha256 s (.post r) = some s₁ := by
    simp only [step, hv]
    rfl
  have hcall : begun.calls[s.system.db.calls.length]? =
      some (.admitEvent args (.running (.begun s.system.db.clock))) :=
    List.getElem?_concat_length
  have hopen : begun.uncommitted = [] := by
    have hnone := uncommitted_of_settled hsettled
    simp only [Database.uncommitted] at hnone
    simp [hbegun, Database.uncommitted, Request.start, Call.insertedRow, hnone]
  obtain ⟨-, request, -, hevent⟩ := Submission.validate_eq_ok hv
  obtain ⟨hid, -, -, hpayload, hnull⟩ := Event.new_eq_ok hevent
  obtain ⟨row, hrow⟩ := admission_checkedRow_ok sha256 event key s.system.db.clock
    (hpayload ▸ hnull) hnul
  have hnew : ∀ x ∈ begun.events ++ begun.uncommitted, x.eventId ≠ args.eventId := by
    intro x hx heq
    rw [hopen, List.append_nil] at hx
    obtain ⟨k, -, p, -, -, -, hk, -, -, hown, -⟩ := h.row_posted hx
    exact hfresh p (List.mem_of_getElem? hk) ((hown.symm.trans heq).trans hid)
  have hfree : ∀ x ∈ begun.uncommitted, x.scope ≠ args.scope := by
    rw [hopen]
    exact fun x hx => (by cases hx)
  obtain ⟨n, o, db, hrun, hcommitted⟩ := Database.run_admission hrow hcall hnew hfree
  rw [← List.map_replicate] at hrun
  have hreach : Reaches (step sha256) s₁ ⟨{ s₁.system with db := db }, s₁.posts⟩ :=
    reaches_advances hrun
  exact ⟨_, s.system.db.calls.length, o, (Reaches.single hpost).trans hreach, rfl, hcommitted⟩

theorem Reachable.answers (h : s.Reachable sha256) {r : Submission F}
    (hv : r.validate = .ok (event, key)) (hnul : event.payload.json.noNul = true)
    (hfresh : ∀ p ∈ s.posts, p.submission.id ≠ r.id) :
    ∃ (s' : Service F) (c : ℕ) (o : AdmitOutcome), Reaches (step sha256) s s' ∧
      s'.posts = s.posts ++ [⟨r, some c, some (respond o)⟩] ∧
      s'.system.db.calls[c]? =
        some (.admitEvent (admission sha256 event key) (.returned o)) := by
  obtain ⟨s₁, hreach₁, hposts₁, hsettled⟩ : ∃ s₁, Reaches (step sha256) s s₁ ∧
      s₁.posts = s.posts ∧ s₁.system.db.Settled := settles s
  obtain ⟨s₂, c, o, hreach₂, hposts₂, hcommitted⟩ :=
    (h.trans hreach₁).admits hsettled hv hnul (hposts₁ ▸ hfresh)
  rw [hposts₁] at hposts₂
  have hlast : s₂.posts[s.posts.length]? = some ⟨r, some c, none⟩ := by
    rw [hposts₂]
    exact List.getElem?_concat_length
  refine ⟨_, c, o, (hreach₁.trans hreach₂).tail (step_reply hlast rfl hcommitted), ?_,
    Database.getElem?_setCall hcommitted⟩
  have hanswer : Post.answer sha256 ⟨r, some c, none⟩ (.ok o) =
      ⟨r, some c, some (respond o)⟩ :=
    congrArg (fun x => Post.mk r (some c) (some x)) (ingest_of_valid sha256 hv (.ok o))
  show s₂.posts.set s.posts.length _ = _
  rw [hposts₂, hanswer, List.set_append_right _ _ le_rfl, Nat.sub_self]
  rfl

/-- **Sending a request again.** Whatever has happened before, and whatever is going on: a request
that passes validation, with a fresh id and a payload that can be stored, can be answered. If a row
has its key, the answer is that row's id or a conflict, as the fingerprints say; if no request used
the key before, the event is new. -/
theorem retry_answered (h : s.Reachable sha256) {r : Submission F}
    (hv : r.validate = .ok (event, key)) (hnul : event.payload.json.noNul = true)
    (hfresh : ∀ p ∈ s.posts, p.submission.id ≠ r.id) :
    ∃ (s' : Service F) (c : ℕ) (response : Except ApiError AcceptedResponse),
      Reaches (step sha256) s s' ∧ s'.posts = s.posts ++ [⟨r, some c, some response⟩] ∧
      ((∃ a, response = .ok a) ∨ response = .error .idempotencyConflict) ∧
      (∀ row ∈ s.system.db.events, row.scope = (event.source.asStr, key.expose) →
        response = if row.requestFingerprint = (admission sha256 event key).requestFingerprint
          then .ok ⟨row.eventId, true⟩ else .error .idempotencyConflict) ∧
      ((∀ p ∈ s.posts, ∀ e k, p.submission.validate = .ok (e, k) →
        ¬ (e.source = event.source ∧ k = key)) → response = .ok ⟨r.id, false⟩) := by
  obtain ⟨s', c, o, hreach, hposts, hc⟩ := h.answers hv hnul hfresh
  have h' := h.trans hreach
  have hdb' := h'.system.db
  have hown : ∀ id, o = .created id → id = r.id := by
    rintro id rfl
    exact (hdb'.created_own hc rfl).trans (Submission.event_id hv)
  obtain ⟨row', hrow', hscope', hholds⟩ := hdb'.outcome_holds hc rfl
  refine ⟨s', c, respond o, hreach, hposts, ?_, fun row hrow hscope => ?_, fun hunused => ?_⟩
  · cases o with
    | created id | replayed id => exact .inl ⟨_, rfl⟩
    | conflict => exact .inr rfl
  · -- the row is still there, and it is the one that was found
    obtain ⟨k, w, p, e, k', -, hk, -, -, hid, -⟩ := h.row_posted hrow
    obtain ⟨later, hlater, hkept⟩ :=
      h.system.db.later (System.reaches_db (reaches_system hreach)) hrow
    have hsame : later = row' := hdb'.sound.eq_of_scope hlater hrow'
      (((congrArg Content.scope hkept.content).trans hscope).trans hscope'.symm)
    have hidSame : row'.eventId = row.eventId := hsame ▸ congrArg Content.eventId hkept.content
    have hfpSame : row'.requestFingerprint = row.requestFingerprint :=
      hsame ▸ congrArg Content.requestFingerprint hkept.content
    cases o with
    | created id =>
      have hnew : row'.eventId = r.id := hholds.trans (hown id rfl)
      exact absurd ((hid.symm.trans hidSame.symm).trans hnew) (hfresh p (List.mem_of_getElem? hk))
    | replayed id =>
      rw [if_pos (hfpSame.symm.trans hholds.2), ← hidSame, hholds.1]
      rfl
    | conflict =>
      rw [if_neg (fun heq => hholds (hfpSame.trans heq))]
      rfl
  · cases o with
    | created id =>
      rw [← hown id rfl]
      rfl
    | replayed id | conflict =>
      -- the row that was found was stored for this request, which has written nothing
      exfalso
      obtain ⟨k, w, p, e, k', -, hk, hcall, hv', -, -, -, ⟨hlog, hop, hcontent⟩, now, hrow⟩ :=
        h'.row_posted hrow'
      obtain ⟨-, -, payload, -, hrow⟩ := AdmitArgs.checkedRow_eq_ok.mp hrow
      rw [hrow] at hcontent
      have hkey : e.source = event.source ∧ k' = key :=
        scope_inj ((congrArg Content.scope hcontent).symm.trans hscope')
      have hmem := List.mem_of_getElem? hk
      rw [hposts] at hmem
      rcases List.mem_append.mp hmem with hmem | hmem
      · exact hunused p hmem e k' hv' hkey
      · obtain rfl := List.mem_singleton.mp hmem
        obtain rfl := Option.some.inj hcall
        have hnone := hdb'.outcome_written hc rfl
        have hwritten : w ∈ s'.system.db.written w.call := Database.mem_written.mpr ⟨hlog, rfl⟩
        simp only at hnone
        rw [hnone] at hwritten
        cases hwritten

end Again

section Orders

attribute [local instance] SampleFloat.serde

theorem order_validate (id : ℕ) (isUuid : id < 2 ^ 128) {payload : Value SampleFloat}
    (h : payload.isNull = false) : (order id isUuid payload).validate =
      .ok (⟨⟨id⟩, .ordersApi, .orderCreated, payload, 0⟩, .short) := by
  have hkey : idempotencyKey (some ⟨some "k"⟩) = .ok .short := rfl
  have hevent : Event.new ⟨id⟩ 0 "orders-api" "order.created" payload =
      .ok ⟨⟨id⟩, .ordersApi, .orderCreated, payload, 0⟩ :=
    Event.new_ok ⟨id⟩ 0 .ordersApi .orderCreated h
  simp only [Submission.validate, order, hkey, hevent, Except.mapError, bind, Except.bind, pure,
    Except.pure]

/-- An order is stored, but its client is told that the database is unavailable. -/
def lostOrder : List (ServiceAct SampleFloat) :=
  [.post (order 7 (by decide) sampleOrder), .system (.store (.advance 0)),
    .system (.store (.advance 0)), .lose 0 .poolTimedOut]

/-- Sent again, the order gets the event it has made. -/
theorem retry_answered_lost :
    ∃ (s s' : Service SampleFloat) (c : ℕ),
      run (step lastBytes) (empty 0) lostOrder = some s ∧
      s.posts.map (·.response.map responseStatus) = [some 503] ∧
      Reaches (step lastBytes) s s' ∧
      s'.posts =
        s.posts ++ [⟨order 8 (by decide) sampleOrder, some c, some (.ok ⟨⟨7⟩, true⟩)⟩] := by
  have hrun : (run (step lastBytes) (empty 0) lostOrder).map (fun s =>
      (s.posts.map (·.response.map responseStatus), decide (
        s.posts.map (·.submission.id) = [⟨7⟩] ∧
        s.system.db.events.map (·.eventId) = [⟨7⟩] ∧
        ∀ r ∈ s.system.db.events, r.scope = ("orders-api", "k") ∧ r.requestFingerprint =
          (admission lastBytes
            ⟨⟨8⟩, .ordersApi, .orderCreated, sampleOrder, 0⟩ .short).requestFingerprint))) =
      some ([some 503], true) := by
    decide +kernel
  obtain ⟨s, hs, hobs⟩ := Option.map_eq_some_iff.mp hrun
  obtain ⟨hstatus, hobs⟩ := Prod.mk.inj hobs
  obtain ⟨hids, hevents, hrows⟩ := of_decide_eq_true hobs
  have hfresh : ∀ p ∈ s.posts, p.submission.id ≠ (order 8 (by decide) sampleOrder).id := by
    intro p hp heq
    have hmem : p.submission.id ∈ s.posts.map (·.submission.id) := List.mem_map.mpr ⟨p, hp, rfl⟩
    rw [hids, heq] at hmem
    exact absurd hmem (by decide)
  obtain ⟨row, hrow, hid⟩ : ∃ row ∈ s.system.db.events, row.eventId = ⟨7⟩ :=
    List.mem_map.mp (hevents ▸ List.mem_singleton.mpr rfl)
  obtain ⟨s', c, response, hreach, hposts, -, hstored, -⟩ := retry_answered
    ⟨0, _, hs⟩ (order_validate 8 (by decide) (by decide)) (by decide) hfresh
  have hresponse := hstored row hrow (hrows row hrow).1
  rw [if_pos (hrows row hrow).2, hid] at hresponse
  exact ⟨s, s', c, hs, hstatus, hreach, hresponse ▸ hposts⟩

end Orders

/-! ## Processing -/

section Processing

variable {F : Type} [SerdeJson F] {sha256 : List UInt8 → RequestFingerprint} {s : Service F}

theorem reaches_alone {system : System} (h : Reaches System.stepAlone s.system system) :
    Reaches (step sha256) s ⟨system, s.posts⟩ := by
  refine h.invariant (P := fun t => Reaches (step sha256) s ⟨t, s.posts⟩) (.refl s) ?_
  intro t b t' _ ht hb
  obtain ⟨hnot, hstep⟩ := System.stepAlone_some hb
  refine ht.tail (a := .system b) ?_
  simp [step, hnot, hstep]

/-- **Accepted events can be processed.** Whatever has happened to workers and requests: if every
open event can be read and has not run out of delivery attempts, a fresh worker can process all
events at any time `now` when the leases are over, with no help of any request. It delivers each
open event once more, leaves the others alone and reports just the open ones; and then every client
that was given an id reads that its event is processed. -/
theorem accepted_processed [UuidText] (toChar : Timestamp → String) (h : s.Reachable sha256)
    (hroom : ∀ r ∈ s.system.db.events, r.status ≠ .processed → r.deliveryAttempts < integerMax)
    (hread : ∀ r ∈ s.system.db.events, r.status ≠ .processed → r.payload.Readable)
    {now : Timestamp} (hnow : s.system.db.clock ≤ now)
    (hleases : ∀ r ∈ s.system.db.events, ∀ l, r.leaseExpiresAt = some l → l ≤ now)
    (owner : WorkerId) {config : WorkerRuntimeConfig} (hslots : 0 < config.concurrency)
    (hfits : LeaseFits now config.lease) :
    ∃ (s' : Service F) (w : Worker), Reaches (step sha256) s s' ∧
      Reaches System.stepAlone s.system s'.system ∧ s'.posts = s.posts ∧
      s'.system.db.clock = now ∧
      s'.system.workers[s.system.workers.length]? = some w ∧ w.owner = owner ∧
      w.phase = .stopped ⟨s.system.db.openEvents, 0, 0, false, 0⟩ ∧
      s'.system.db.events.map Row.toContent = s.system.db.events.map Row.toContent ∧
      (∀ r ∈ s.system.db.events, ∀ r' ∈ s'.system.db.events, r'.eventId = r.eventId →
        r'.status = .processed ∧ r'.deliveryAttempts =
          r.deliveryAttempts + (if r.status = .processed then 0 else 1)) ∧
      ∀ post ∈ s.posts, ∀ a, post.response = some (.ok a) →
        ∃ view, getEvent (s'.system.db.get toChar) a.eventId.display = .ok view ∧
          view.eventId = a.eventId.display ∧ view.status = "processed" ∧
          view.processedAt.isSome = true := by
  obtain ⟨system, w, hreach, hclock, hw, howner, -, hphase, hcontent, hfinal⟩ :=
    System.recovers h.system h.fromApi hroom hread hnow hleases owner hslots hfits
  have h' : system.Reachable := h.system.trans (System.reaches_of_alone hreach)
  refine ⟨⟨system, s.posts⟩, w, reaches_alone hreach, hreach, rfl, hclock, hw, howner, hphase,
    hcontent, hfinal, fun post hpost a ha => ?_⟩
  obtain ⟨event, key, hv⟩ := h.validated hpost ha
  obtain ⟨r, hr, hid, -⟩ := h.accepted_row hpost hv ha
  obtain ⟨r', hr', hlater⟩ :=
    h.system.db.later (System.reaches_db (System.reaches_of_alone hreach)) hr
  have hsame : r'.eventId = r.eventId := congrArg Content.eventId hlater.content
  have hdone := (hfinal r hr r' hr' hsame).1
  have hread : EventId.parse a.eventId.display = some r'.eventId :=
    (h.parse_accepted hpost ha).trans (congrArg some (hsame.trans hid).symm)
  refine ⟨r'.view toChar, getEvent_of_mem toChar h'.db.sound hr' hread, ?_, ?_, ?_⟩
  · exact congrArg EventId.display (hsame.trans hid)
  · simp [Row.view, EventRecord.response, hdone, EventStatus.asApiStr]
  · show (r'.processedAt.map toChar).isSome = true
    rw [Option.isSome_map]
    exact (h'.db.wellFormed hr').processedAt_iff.mpr hdone

end Processing

section Orders

attribute [local instance] SampleFloat.serde Uuid.hyphenated

/-- The worker of `ordersClaimed` dies with its claim under way; another one takes over. -/
theorem accepted_processed_orders :
    ∃ (s s' : Service SampleFloat) (w : Worker) (view : EventStatusResponse),
      run (step lastBytes) (empty 0)
        (orders ++ ordersClaimed ++ [.system (.worker 0 .crashed)]) = some s ∧
      s.system.db.events.map (fun r => (r.status, r.deliveryAttempts)) = [(.processing, 1)] ∧
      Reaches (step lastBytes) s s' ∧ s'.system.workers[1]? = some w ∧
      w.phase = .stopped ⟨1, 0, 0, false, 0⟩ ∧
      getEvent (s'.system.db.get toString) "00000000-0000-0000-0000-000000000007" = .ok view ∧
      view.status = "processed" := by
  have hrun : (run (step lastBytes) (empty 0)
      (orders ++ ordersClaimed ++ [.system (.worker 0 .crashed)])).map (fun s =>
        (s.seen 0, decide (s.system.db.events.map (fun r => (r.status, r.deliveryAttempts)) =
          [(.processing, 1)] ∧ s.system.workers.length = 1 ∧ s.system.db.openEvents = 1 ∧
          s.system.db.clock = 0 ∧ ∀ r ∈ s.system.db.events, r.payload.Readable ∧
            ∀ l ∈ r.leaseExpiresAt, l ≤ 10))) =
      some (some ⟨"k", sampleOrder.json, some (.ok ⟨⟨7⟩, false⟩)⟩, true) := by
    decide +kernel
  obtain ⟨s, hs, hobs⟩ := Option.map_eq_some_iff.mp hrun
  obtain ⟨hseen, hobs⟩ := Prod.mk.inj hobs
  obtain ⟨hevents, hlength, hopen, hclock, hrows⟩ := of_decide_eq_true hobs
  obtain ⟨post, -, -, hi, -, -, ha⟩ := seen_eq_some hseen
  have hroom : ∀ r ∈ s.system.db.events, r.status ≠ .processed →
      r.deliveryAttempts < integerMax := by
    intro r hr _
    have hmem : (r.status, r.deliveryAttempts) ∈ [(EventStatus.processing, (1 : ℤ))] :=
      hevents ▸ List.mem_map_of_mem hr
    rw [(Prod.mk.inj (List.mem_singleton.mp hmem)).2]
    decide
  have hslots : 0 < (⟨1, 10⟩ : WorkerRuntimeConfig).concurrency := by decide
  obtain ⟨s', w, hreach, -, -, -, hw, -, hphase, -, -, hread⟩ :=
    accepted_processed toString ⟨0, _, hs⟩ hroom (fun r hr _ => (hrows r hr).1)
      (hclock ▸ (by decide : (0 : Timestamp) ≤ 10)) (fun r hr => (hrows r hr).2) ⟨2⟩ hslots
      (by decide)
  obtain ⟨view, hget, -, hstatus, -⟩ := hread post (List.mem_of_getElem? hi) _ ha
  have htext : (⟨7⟩ : EventId).display = "00000000-0000-0000-0000-000000000007" := by
    decide +kernel
  exact ⟨s, s', w, view, hs, hevents, hreach, hlength ▸ hw, hopen ▸ hphase, htext ▸ hget, hstatus⟩

end Orders

end Service

end PulseStream
