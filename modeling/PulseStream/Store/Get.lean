import PulseStream.Store.Completion

/-!
# Reading back what was stored

`Store::get`, and the decoding half of `Store::claim` for rows that the API admitted. By
`inconsistent_unreachable`, `StoreError::Inconsistent` is never returned, and a claim whose UPDATE
committed returns the rows it claimed exactly when `serde_json` can read every stored payload among
them. A payload of `f64::MAX` is admitted and cannot be read.
-/

namespace PulseStream

/-! ## `Store::get` -/

/-- Public, non-sensitive view of a stored event. -/
structure EventRecord where
  eventId : EventId
  source : String
  eventType : String
  status : EventStatus
  acceptedAt : String
  processedAt : Option String
  deriving DecidableEq

section Get

/-! `toChar` is PostgreSQL's `to_char(… AT TIME ZONE 'UTC', …)`, the text of an instant. -/

variable (toChar : Timestamp → String)

/-- The closure that `Store::get` maps over the row. -/
def Row.record (r : Row) : Except StoreError EventRecord := do
  let status ← match EventStatus.fromDbStr r.status.asDbStr with
    | some status => .ok status
    | none => .error (.inconsistent "unknown status")
  return {
    eventId := r.eventId
    source := r.source
    eventType := r.eventType
    status := status
    acceptedAt := toChar r.acceptedAt
    processedAt := r.processedAt.map toChar }

/-- `Store::get`: one SELECT, which reads the committed table. -/
def Database.get (s : Database) (id : EventId) : Except StoreError (Option EventRecord) :=
  match s.rowOf id with
  | none => .ok none
  | some r => (r.record toChar).map some

theorem Row.record_eq (r : Row) :
    r.record toChar = .ok ⟨r.eventId, r.source, r.eventType, r.status, toChar r.acceptedAt,
      r.processedAt.map toChar⟩ := by
  unfold record
  rw [EventStatus.fromDbStr_asDbStr]
  rfl

theorem Database.get_eq_ok (s : Database) (id : EventId) :
    ∃ found, s.get toChar id = .ok found := by
  unfold get
  split
  · exact ⟨none, rfl⟩
  · rename_i r hr
    rw [r.record_eq]
    exact ⟨_, rfl⟩

end Get

section Validated

variable {F : Type} [SerdeJson F]

/-- The statement parameters of an admission of the API: a validated event and a parsed key. -/
def AdmitArgs.Validated (args : AdmitArgs) : Prop :=
  ∃ (event : Event (Value F)) (key : IdempotencyKey) (fingerprint : RequestFingerprint),
    (∃ id now source eventType payload, Event.new id now source eventType payload = .ok event) ∧
      args = .ofEvent event key fingerprint

/-- The payload that is bound can be read again once it is stored. -/
def AdmitArgs.Readable (args : AdmitArgs) : Prop :=
  ∀ payload, jsonbIn args.payload = some payload → payload.Readable

/-- What `Store::claim` returns, once it returns: the rows are decoded after the commit. -/
def Progress.claimResult (p : Progress ClaimStage (List Grant)) :
    Option (Except StoreError (List (ClaimedEvent (Json Token)))) :=
  p.result.map fun result => result.bind decodeClaims

/-- Every admission was made with a validated event and a parsed key. -/
def Database.FromApi (s : Database) : Prop :=
  ∀ (i : ℕ) (args : AdmitArgs) (p : Progress AdmitStage AdmitOutcome),
    s.calls[i]? = some (.admitEvent args p) → args.Validated

end Validated

/-! ## Failures -/

theorem StoreError.ofSqlx_ne_inconsistent (e : SqlxError) (what : String) :
    ofSqlx e ≠ .inconsistent what := by
  simp only [ofSqlx]
  split_ifs <;> simp

/-- The error a call has failed with. -/
def Call.failure : Call → Option StoreError
  | .admitEvent _ (.failed e) => some e
  | .claim _ (.failed e) => some e
  | .complete _ (.failed e) => some e
  | _ => none

namespace Database

variable {s s' : Database} {c : ℕ} {call call' : Call} {events : List Row} {ws : List Write}

/-- A call fails with an error of the driver: a key that was found taken has its row. -/
theorem Transition.failure (h : Transition s c call call' events ws) (ha : call.Answers s.events)
    {e : StoreError} (he : call'.failure = some e) : ∃ e', e = .ofSqlx e' := by
  cases h with
  | move h =>
    cases h with
    | missing hrows =>
      obtain ⟨r, hr, hscope⟩ := ha.taken _ rfl
      exact absurd hscope (hrows r hr)
    | refused | duplicateId | claimFailed | completeFailed =>
      exact ⟨_, (Option.some.inj he).symm⟩
    | signal h =>
      rcases Call.signal_some h with ⟨_, p, p', rfl, rfl, hp⟩ | ⟨_, p, p', rfl, rfl, hp⟩ |
        ⟨_, p, p', rfl, rfl, hp⟩ <;>
      rcases Progress.signal_some hp with ⟨e', rfl⟩ | rfl | ⟨r, rfl, rfl⟩ <;>
      first
      | exact ⟨e', (Option.some.inj he).symm⟩
      | cases he
    | _ => cases he
  | _ => cases he

theorem start_failure (now : Timestamp) (req : Request) : (req.start now).failure = none := by
  cases req with
  | claim args =>
    simp only [Request.start]
    split_ifs <;> rfl
  | _ => rfl

theorem Reachable.failures (h : s.Reachable) {i : ℕ} {e : StoreError}
    (hi : s.calls[i]? = some call) (he : call.failure = some e) : ∃ e', e = .ofSqlx e' := by
  refine h.call_invariant (P := fun call => ∀ e, call.failure = some e → ∃ e', e = .ofSqlx e')
    ?_ ?_ hi e he
  · intro now req e he
    rw [start_failure] at he
    cases he
  · intro t c call call' events ws ht hc _ htrans e he
    exact htrans.failure (ht.answered c call hc) he

/-! ## Admissions of the API -/

section FromApi

variable {F : Type} [SerdeJson F]

theorem Reachable.labels (h : s.Reachable) (hapi : s.FromApi) {w : Write} (hw : w ∈ s.log) :
    ∃ (source : EventSource) (eventType : EventType),
      w.row.source = source.asStr ∧ w.row.eventType = eventType.asStr := by
  obtain ⟨r, hr, hrid⟩ := h.traced.known w hw
  obtain ⟨w₀, args, p, now, -, -, hc, hrow, hcontent, -⟩ := h.inserted_by hr
  obtain ⟨-, -, payload, -, hrow⟩ := AdmitArgs.checkedRow_eq_ok.mp hrow
  obtain ⟨event, key, fingerprint, -, rfl⟩ := hapi w₀.call args p hc
  have hsame : w.row.toContent = w₀.row.toContent :=
    ((h.traced.trail r hr).content w (mem_history.mpr ⟨hw, hrid.symm⟩)).trans hcontent
  refine ⟨event.source, event.eventType, ?_, ?_⟩
  · rw [hsame, hrow]
    rfl
  · rw [hsame, hrow]
    rfl

theorem Reachable.decode_ok (h : s.Reachable) (hapi : s.FromApi) {i : ℕ}
    (hi : s.calls[i]? = some call) {g : Grant} (hg : g ∈ call.grants) :
    ∃ x, g.decode = .ok x := by
  obtain ⟨owner, now, lease, hlog⟩ := h.grant_logged hi hg
  obtain ⟨source, eventType, hsource, htype⟩ := h.labels hapi hlog
  obtain ⟨r, hr, hrid⟩ := h.traced.known _ hlog
  have hpos : 1 ≤ g.row.deliveryAttempts := ((h.traced.trail r hr).reclaimed _
    (mem_history.mpr ⟨hlog, hrid.symm⟩) owner now lease g.previous rfl).1
  have hattempts : u32TryFrom g.row.deliveryAttempts = .ok g.row.deliveryAttempts.toNat :=
    if_pos (by omega)
  refine ⟨⟨⟨g.row.eventId, source, eventType, jsonbOut g.row.payload, max 0 g.row.acceptedAt⟩,
    g.row.deliveryAttempts.toNat, g.previous.asDbStr == EventStatus.processing.asDbStr⟩, ?_⟩
  unfold Grant.decode EventSource.parse EventType.parse
  rw [hsource, htype, source.parse_asStr, eventType.parse_asStr, hattempts]
  rfl

theorem Reachable.mapM_decode_ok (h : s.Reachable) (hapi : s.FromApi) {i : ℕ} {args : ClaimArgs}
    {p : Progress ClaimStage (List Grant)} (hi : s.calls[i]? = some (.claim args p))
    {grants : List Grant} (hp : p.answer = some grants) :
    ∃ xs, grants.mapM Grant.decode = .ok xs ∧
      xs.map (·.event.id) = grants.map (·.row.eventId) := by
  have hall : ∀ g ∈ grants, ∃ x, g.decode = .ok x := by
    intro g hg
    refine h.decode_ok hapi hi ?_
    show g ∈ p.answer.getD []
    rwa [hp]
  clear hi hp
  induction grants with
  | nil => exact ⟨[], rfl, rfl⟩
  | cons g grants ih =>
    obtain ⟨x, hx⟩ := hall g List.mem_cons_self
    obtain ⟨xs, hxs, hids⟩ := ih fun g' hg' => hall g' (List.mem_cons_of_mem _ hg')
    refine ⟨x :: xs, ?_, ?_⟩
    · rw [List.mapM_cons, hx, hxs]
      rfl
    · rw [List.map_cons, List.map_cons, hids, (Grant.decode_eq_ok hx).1]

theorem claimResult_of_answer {p : Progress ClaimStage (List Grant)} {grants : List Grant}
    (hp : p.answer = some grants) : p.claimResult = some (decodeClaims grants) := by
  cases p with
  | committed r | returned r =>
    obtain rfl := Option.some.inj hp
    rfl
  | _ => cases hp

theorem claimResult_of_not_readable {p : Progress ClaimStage (List Grant)} {g : Grant}
    (hg : g ∈ p.answer.getD []) (h : ¬g.row.payload.Readable) :
    p.claimResult = some (.error (.ofSqlx .columnDecode)) := by
  cases hp : p.answer with
  | none =>
    rw [hp] at hg
    cases hg
  | some grants =>
    rw [hp, Option.getD_some] at hg
    rw [claimResult_of_answer hp, decodeClaims_of_not_readable hg h]

theorem Reachable.grant_payload (h : s.Reachable) {i : ℕ} (hi : s.calls[i]? = some call) {g : Grant}
    (hg : g ∈ call.grants) : ∃ r ∈ s.events, r.eventId = g.row.eventId ∧
      r.payload = g.row.payload := by
  obtain ⟨owner, now, lease, hlog⟩ := h.grant_logged hi hg
  obtain ⟨r, hr, hrid⟩ := h.traced.known _ hlog
  have hcontent := (h.traced.trail r hr).content _ (mem_history.mpr ⟨hlog, hrid.symm⟩)
  exact ⟨r, hr, hrid, congrArg Content.payload hcontent.symm⟩

theorem Reachable.readable_iff (h : s.Reachable) {i : ℕ} {args : ClaimArgs}
    {p : Progress ClaimStage (List Grant)} (hi : s.calls[i]? = some (.claim args p))
    {grants : List Grant} (hp : p.answer = some grants) :
    (∀ g ∈ grants, g.row.payload.Readable) ↔
      ∀ r ∈ s.events, r.eventId ∈ grants.map (·.row.eventId) → r.payload.Readable := by
  have hgrants : ∀ g ∈ grants, ∃ r ∈ s.events, r.eventId = g.row.eventId ∧
      r.payload = g.row.payload := by
    intro g hg
    refine h.grant_payload hi ?_
    show g ∈ p.answer.getD []
    rwa [hp]
  constructor
  · intro hread r hr hmem
    obtain ⟨g, hg, hid⟩ := List.mem_map.mp hmem
    obtain ⟨r', hr', hid', hpayload⟩ := hgrants g hg
    obtain rfl := h.sound.eq_of_id hr hr' (hid.symm.trans hid'.symm)
    exact hpayload ▸ hread g hg
  · intro hread g hg
    obtain ⟨r, hr, hid, hpayload⟩ := hgrants g hg
    exact hpayload ▸ hread r hr (List.mem_map.mpr ⟨g, hg, hid.symm⟩)

theorem Reachable.payload_readable (h : s.Reachable)
    (hread : ∀ (i : ℕ) (args : AdmitArgs) (p : Progress AdmitStage AdmitOutcome),
      s.calls[i]? = some (.admitEvent args p) → args.Readable) {r : Row} (hr : r ∈ s.events) :
    r.payload.Readable := by
  obtain ⟨w, args, p, now, -, -, hc, hrow, hcontent, -⟩ := h.inserted_by hr
  obtain ⟨-, -, payload, hpayload, hrow⟩ := AdmitArgs.checkedRow_eq_ok.mp hrow
  rw [hcontent, hrow]
  exact hread w.call args p hc payload hpayload

/-- A claim that has committed returns all the rows it claimed exactly when each payload among them
can be read, and fails with the driver's error otherwise. -/
theorem Reachable.claimResult_iff (h : s.Reachable) (hapi : s.FromApi) {i : ℕ} {args : ClaimArgs}
    {p : Progress ClaimStage (List Grant)} (hi : s.calls[i]? = some (.claim args p))
    {grants : List Grant} (hp : p.answer = some grants) :
    ((∀ g ∈ grants, g.row.payload.Readable) ∧ ∃ xs, p.claimResult = some (.ok xs) ∧
      xs.map (·.event.id) = grants.map (·.row.eventId)) ∨
    ((¬∀ g ∈ grants, g.row.payload.Readable) ∧
      p.claimResult = some (.error (.ofSqlx .columnDecode))) := by
  rw [claimResult_of_answer hp]
  by_cases hread : ∀ g ∈ grants, g.row.payload.Readable
  · obtain ⟨xs, hxs, hids⟩ := h.mapM_decode_ok hapi hi hp
    rw [decodeClaims_of_readable hread, hxs]
    exact .inl ⟨hread, xs, rfl, hids⟩
  · refine .inr ⟨hread, ?_⟩
    simp only [not_forall] at hread
    obtain ⟨g, hg, hnot⟩ := hread
    rw [decodeClaims_of_not_readable hg hnot]

/-- **No inconsistent data.** With admissions of the API only, no admission and no claim returns
`Inconsistent`, nor does a lookup. A claim that has committed returns all the rows it claimed
exactly when the payload stored in each of them can be read, which is so in every run that admits
readable payloads only. -/
theorem inconsistent_unreachable (toChar : Timestamp → String) (h : s.Reachable)
    (hapi : s.FromApi) :
    (∀ (i : ℕ) (args : AdmitArgs) (p : Progress AdmitStage AdmitOutcome) (what : String),
      s.calls[i]? = some (.admitEvent args p) → p.result ≠ some (.error (.inconsistent what))) ∧
    (∀ (id : EventId) (what : String), s.get toChar id ≠ .error (.inconsistent what)) ∧
    (∀ (i : ℕ) (args : ClaimArgs) (p : Progress ClaimStage (List Grant)) (what : String),
      s.calls[i]? = some (.claim args p) →
        p.claimResult ≠ some (.error (.inconsistent what))) ∧
    (∀ (i : ℕ) (args : ClaimArgs) (p : Progress ClaimStage (List Grant)) (grants : List Grant),
      s.calls[i]? = some (.claim args p) → p.answer = some grants →
        ((∃ xs, p.claimResult = some (.ok xs) ∧
            xs.map (·.event.id) = grants.map (·.row.eventId)) ↔
          ∀ r ∈ s.events, r.eventId ∈ grants.map (·.row.eventId) → r.payload.Readable)) ∧
    ((∀ (i : ℕ) (args : AdmitArgs) (p : Progress AdmitStage AdmitOutcome),
      s.calls[i]? = some (.admitEvent args p) → args.Readable) →
        ∀ r ∈ s.events, r.payload.Readable) := by
  refine ⟨?_, ?_, ?_, ?_, fun hread r hr => h.payload_readable hread hr⟩
  · intro i args p what hi hp
    cases p with
    | failed e =>
      obtain ⟨e', rfl⟩ := h.failures hi rfl
      exact StoreError.ofSqlx_ne_inconsistent e' what (Except.error.inj (Option.some.inj hp))
    | _ => cases hp
  · intro id what herr
    obtain ⟨found, hfound⟩ := s.get_eq_ok toChar id
    rw [hfound] at herr
    cases herr
  · intro i args p what hi hp
    cases p with
    | failed e =>
      obtain ⟨e', rfl⟩ := h.failures hi rfl
      exact StoreError.ofSqlx_ne_inconsistent e' what (Except.error.inj (Option.some.inj hp))
    | committed grants | returned grants =>
      rcases h.claimResult_iff hapi hi rfl with ⟨-, xs, hxs, -⟩ | ⟨-, herr⟩
      · rw [hxs] at hp
        cases hp
      · rw [herr] at hp
        exact StoreError.ofSqlx_ne_inconsistent _ what (Except.error.inj (Option.some.inj hp))
    | _ => cases hp
  · intro i args p grants hi hp
    rw [← h.readable_iff hi hp]
    rcases h.claimResult_iff hapi hi hp with ⟨hread, hok⟩ | ⟨hread, herr⟩
    · exact iff_of_true hok hread
    · refine iff_of_false ?_ hread
      rintro ⟨xs, hxs, -⟩
      rw [herr] at hxs
      cases hxs

end FromApi

section Sample

attribute [local instance] SampleFloat.serde

theorem ofEvent_validated (event : Event (Value SampleFloat)) (key : IdempotencyKey)
    (hnull : event.payload.isNull = false) : (AdmitArgs.ofEvent event key .zero).Validated :=
  ⟨event, key, .zero, ⟨event.id, event.acceptedAt, event.source.asStr, event.eventType.asStr,
    event.payload, Event.new_ok event.id event.acceptedAt event.source event.eventType hnull⟩, rfl⟩

/-- Event 7 with the payload `true`. -/
def plainAdmission : AdmitArgs :=
  .ofEvent ⟨⟨7⟩, .ordersApi, .orderCreated, ⟨.bool true, rfl⟩, 0⟩ .short .zero

/-- Event 8 with the payload `f64::MAX`. -/
def maxAdmission : AdmitArgs :=
  .ofEvent ⟨⟨8⟩, .ordersApi, .orderCreated, ⟨.num (.float .max), rfl⟩, 0⟩ ⟨"m", by decide⟩ .zero

/-- Both events are admitted, and one claim takes them. -/
def unreadableRun : List Act :=
  [.begin (.admitEvent plainAdmission), .advance 0, .advance 0,
    .begin (.admitEvent maxAdmission), .advance 1, .advance 1,
    .begin (.claim ⟨⟨1⟩, 4, 10⟩), .advance 2, .advance 2, .advance 2, .advance 2]

theorem fromApi_of_requests {s : Database} (h : ∀ req ∈ s.calls.map Call.request, ∀ args,
    req = .admitEvent args → args = plainAdmission ∨ args = maxAdmission) : s.FromApi := by
  intro i args p hi
  have hmem : Request.admitEvent args ∈ s.calls.map Call.request :=
    List.mem_map.mpr ⟨_, List.mem_of_getElem? hi, rfl⟩
  rcases h _ hmem args rfl with rfl | rfl
  · exact ofEvent_validated _ _ rfl
  · exact ofEvent_validated _ _ rfl

/-- A claim with a row whose payload cannot be read, by what can be seen of the calls. -/
theorem claim_unreadable {s : Database} {c : ℕ} {args : ClaimArgs}
    {seen : List (EventId × Bool)} (hreq : (s.calls.map Call.request)[c]? = some (.claim args))
    (hgrants : (s.calls.map fun call => call.grants.map fun g =>
      (g.row.eventId, decide g.row.payload.Readable))[c]? = some seen)
    (hnot : false ∈ seen.map Prod.snd) :
    ∃ p, s.calls[c]? = some (.claim args p) ∧
      (p.answer.getD []).map (·.row.eventId) = seen.map Prod.fst ∧
      p.claimResult = some (.error (.database .columnDecode)) := by
  rw [List.getElem?_map] at hreq hgrants
  obtain ⟨call, hc, hclaim⟩ := Option.map_eq_some_iff.mp hreq
  obtain ⟨p, rfl⟩ := Call.of_request_claim hclaim
  rw [hc] at hgrants
  obtain rfl := Option.some.inj hgrants
  rw [List.map_map] at hnot
  obtain ⟨g, hg, hread⟩ := List.mem_map.mp hnot
  refine ⟨p, hc, by rw [List.map_map]; rfl, ?_⟩
  exact claimResult_of_not_readable hg (of_decide_eq_false hread)

/-- The claim commits, both rows are `PROCESSING`, and the caller gets an error. -/
theorem unreadable_payload_strands_batch :
    ∃ s p, Machine.run step (empty 0) unreadableRun = some s ∧ s.FromApi ∧
      s.events.map (fun r => (r.eventId, r.status)) = [(⟨7⟩, .processing), (⟨8⟩, .processing)] ∧
      s.calls[2]? = some (.claim ⟨⟨1⟩, 4, 10⟩ p) ∧
      (p.answer.getD []).map (·.row.eventId) = [⟨7⟩, ⟨8⟩] ∧
      p.claimResult = some (.error (.database .columnDecode)) := by
  have hrun : (Machine.run step (empty 0) unreadableRun).map (fun s =>
      (s.events.map (fun r => (r.eventId, r.status)), s.calls.map Call.request,
        s.calls.map fun call => call.grants.map fun g =>
          (g.row.eventId, decide g.row.payload.Readable))) =
      some ([(⟨7⟩, .processing), (⟨8⟩, .processing)],
        [.admitEvent plainAdmission, .admitEvent maxAdmission, .claim ⟨⟨1⟩, 4, 10⟩],
        [[], [], [(⟨7⟩, true), (⟨8⟩, false)]]) := by decide +kernel
  obtain ⟨s, hs, hobs⟩ := Option.map_eq_some_iff.mp hrun
  obtain ⟨hrows, hreq, hgrants⟩ := by simpa only [Prod.mk.injEq] using hobs
  have hapi : s.FromApi := fromApi_of_requests (by
    rw [hreq]
    simp)
  obtain ⟨p, hc, hids, hresult⟩ :=
    claim_unreadable (congrArg (·[2]?) hreq) (congrArg (·[2]?) hgrants) (by simp)
  exact ⟨s, p, hs, hapi, hrows, hc, hids, hresult⟩

/-- The admission of `reclaimRun` is one of the API, its payload can be read, and both of its claims
return their row. -/
theorem inconsistent_unreachable_reclaimed :
    ∃ s, Machine.run step (empty 0) reclaimRun = some s ∧ s.FromApi ∧
      ∀ (i : ℕ) (args : ClaimArgs) (p : Progress ClaimStage (List Grant)) (grants : List Grant),
        s.calls[i]? = some (.claim args p) → p.answer = some grants →
          ∃ xs, p.claimResult = some (.ok xs) ∧
            xs.map (·.event.id) = grants.map (·.row.eventId) := by
  have hrun : (Machine.run step (empty 0) reclaimRun).map (fun s =>
      (s.calls.map Call.request, decide (∀ r ∈ s.events, r.payload.Readable))) =
      some ([.admitEvent plainAdmission, .claim ⟨⟨1⟩, 4, 10⟩, .claim ⟨⟨2⟩, 4, 10⟩,
        .complete ⟨⟨7⟩, ⟨1⟩⟩, .complete ⟨⟨7⟩, ⟨2⟩⟩], true) := by decide +kernel
  obtain ⟨s, hs, hobs⟩ := Option.map_eq_some_iff.mp hrun
  obtain ⟨hreq, hread⟩ := by simpa only [Prod.mk.injEq] using hobs
  have hapi : s.FromApi := fromApi_of_requests (by
    rw [hreq]
    simp)
  refine ⟨s, hs, hapi, fun i args p grants hi hp => ?_⟩
  exact ((inconsistent_unreachable toString ⟨0, _, hs⟩ hapi).2.2.2.1 i args p grants hi hp).mpr
    fun r hr _ => of_decide_eq_true hread r hr

end Sample

end Database

end PulseStream
