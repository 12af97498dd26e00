import PulseStream.Api.Lookup
import PulseStream.Core.Config
import PulseStream.System.Recovery

/-!
# The API over the system

Any number of `POST /v1/events` requests, each of them handled by `ingest` while the other requests
and the workers go on. A request that passes validation begins an admission and awaits it; its
response is that of `ingest` for what `Store::admit` returned to it (`ingest_of_valid`). One that
does not is answered at once, as `ingest` does (`ingest_of_invalid`). The driver may also report an
error while the statement goes on at the server, as when the connection is lost.

`Consistent` ties the two levels together: every answer given out is the answer of a call, and every
admission of the database is one of a request. So the assumption that all admissions come from the
API holds of every run (`Reachable.fromApi`).
-/

namespace PulseStream

open Machine Config

/-! ## Requests -/

/-- A `POST /v1/events` as it reaches the handler, with the id and the time that `Event::new`
takes. -/
structure Submission (F : Type) where
  header : Option HeaderValue
  body : Except JsonRejection (EventRequest F)
  id : EventId
  now : Timestamp
  isUuid : id.uuid < 2 ^ 128

/-- `ingest` up to the fingerprint. -/
def Submission.validate {F : Type} (r : Submission F) :
    Except ApiError (Event (Value F) × IdempotencyKey) := do
  let key ← (idempotencyKey r.header).mapError .ofKeyError
  let request ← r.body.mapError .fromJsonRejection
  let event ← (Event.new r.id r.now request.source request.eventType request.payload).mapError
    fun err => .invalidEvent err.message
  return (event, key)

/-- A request with the admission it has begun, if any, and its response, once it has one. -/
structure Post (F : Type) where
  submission : Submission F
  call : Option ℕ
  response : Option (Except ApiError AcceptedResponse)

/-- The admission that a request awaits. -/
def Post.awaits {F : Type} (post : Post F) : Option ℕ :=
  if post.response.isNone then post.call else none

structure Service (F : Type) where
  system : System
  posts : List (Post F)

inductive ServiceAct (F : Type) where
  | post (r : Submission F)
  | reply (i : ℕ)
  | lose (i : ℕ) (e : SqlxError)
  | system (a : SystemAct)

section Machine

variable {F : Type} [SerdeJson F] (sha256 : List UInt8 → RequestFingerprint)

/-- `ingest` returns, with what the store has returned to it. -/
def Post.answer (post : Post F) (result : Except StoreError AdmitOutcome) : Post F :=
  let r := post.submission
  { post with response := some (ingest sha256 r.id r.now (fun _ => result) r.header r.body) }

namespace Service

def empty (clock : Timestamp) : Service F := ⟨.empty clock, []⟩

def step (s : Service F) : ServiceAct F → Option (Service F)
  | .post r =>
    match r.validate with
    | .error e => some { s with posts := s.posts ++ [⟨r, none, some (.error e)⟩] }
    | .ok (event, key) => do
      let c := s.system.db.calls.length
      let system ← s.system.step (.store (.begin (.admitEvent (admission sha256 event key))))
      some ⟨system, s.posts ++ [⟨r, some c, none⟩]⟩
  | .reply i => do
    let post ← s.posts[i]?
    let c ← post.awaits
    match s.system.db.calls[c]? with
    | some (.admitEvent _ (.committed o)) => do
      let system ← s.system.step (.store (.signal c .reply))
      some ⟨system, s.posts.set i (post.answer sha256 (.ok o))⟩
    | some (.admitEvent _ (.failed e)) =>
      some { s with posts := s.posts.set i (post.answer sha256 (.error e)) }
    | _ => none
  | .lose i e => do
    let post ← s.posts[i]?
    let _ ← post.awaits
    some { s with posts := s.posts.set i (post.answer sha256 (.error (.ofSqlx e))) }
  | .system a =>
    if a.isHandlers then none
    else (s.system.step a).map fun system => { s with system := system }

/-- `s` is reached from an empty database, no workers and no requests. -/
def Reachable (s : Service F) : Prop := ∃ clock, Reaches (step sha256) (empty clock) s

end Service

end Machine

/-! ## What validation and the handler do -/

section Handler

variable {F : Type} {r : Submission F} {event : Event (Value F)} {key : IdempotencyKey}

theorem Submission.validate_eq_ok (h : r.validate = .ok (event, key)) :
    idempotencyKey r.header = .ok key ∧ ∃ request, r.body = .ok request ∧
      Event.new r.id r.now request.source request.eventType request.payload = .ok event := by
  unfold validate at h
  obtain ⟨key', hkey, h⟩ := bind_eq_ok.mp h
  obtain ⟨request, hbody, h⟩ := bind_eq_ok.mp h
  obtain ⟨event', hevent, h⟩ := bind_eq_ok.mp h
  obtain ⟨rfl, rfl⟩ := Prod.mk.inj (Except.ok.inj h)
  exact ⟨mapError_eq_ok.mp hkey, request, mapError_eq_ok.mp hbody, mapError_eq_ok.mp hevent⟩

theorem Submission.event_id (h : r.validate = .ok (event, key)) : event.id = r.id := by
  obtain ⟨-, request, -, hevent⟩ := validate_eq_ok h
  exact (Event.new_eq_ok hevent).1

variable [SerdeJson F] (sha256 : List UInt8 → RequestFingerprint)

/-- The handler is its validation, the store's answer and the response to that. -/
theorem ingest_of_valid (h : r.validate = .ok (event, key))
    (result : Except StoreError AdmitOutcome) :
    ingest sha256 r.id r.now (fun _ => result) r.header r.body =
      (result.mapError storeError).bind respond := by
  obtain ⟨hkey, request, hbody, hevent⟩ := Submission.validate_eq_ok h
  simp only [ingest, hkey, hbody, hevent, Except.mapError, bind, Except.bind]

/-- A request that fails validation is answered without the store. -/
theorem ingest_of_invalid {e : ApiError} (h : r.validate = .error e)
    (admitEvent : AdmitArgs → Except StoreError AdmitOutcome) :
    ingest sha256 r.id r.now admitEvent r.header r.body = .error e := by
  unfold Submission.validate at h
  unfold ingest
  rcases bind_eq_error h with h | ⟨key, hkey, h⟩
  · rw [h]
    rfl
  · rw [hkey]
    rcases bind_eq_error h with h | ⟨request, hbody, h⟩
    · rw [h]
      rfl
    · rw [hbody]
      rcases bind_eq_error h with h | ⟨event, hevent, h⟩
      · simp only [bind, Except.bind, h]
      · cases h

end Handler

/-! ## What a step can do -/

namespace Service

section Steps

variable {F : Type} [SerdeJson F] (sha256 : List UInt8 → RequestFingerprint)
  {s s' : Service F} {a : ServiceAct F}

/-- Everything a step can do. -/
inductive Steps (s : Service F) : ServiceAct F → Service F → Prop
  | refuse {r : Submission F} {e : ApiError} (hv : r.validate = .error e) :
      Steps s (.post r) { s with posts := s.posts ++ [⟨r, none, some (.error e)⟩] }
  | accept {r : Submission F} {event : Event (Value F)} {key : IdempotencyKey} {system : System}
      (hv : r.validate = .ok (event, key))
      (h : s.system.step (.store (.begin (.admitEvent (admission sha256 event key)))) =
        some system) :
      Steps s (.post r) ⟨system, s.posts ++ [⟨r, some s.system.db.calls.length, none⟩]⟩
  | reply {i c : ℕ} {post : Post F} {args : AdmitArgs} {o : AdmitOutcome} {system : System}
      (hi : s.posts[i]? = some post) (hc : post.awaits = some c)
      (hcall : s.system.db.calls[c]? = some (.admitEvent args (.committed o)))
      (h : s.system.step (.store (.signal c .reply)) = some system) :
      Steps s (.reply i) ⟨system, s.posts.set i (post.answer sha256 (.ok o))⟩
  | failed {i c : ℕ} {post : Post F} {args : AdmitArgs} {e : StoreError}
      (hi : s.posts[i]? = some post) (hc : post.awaits = some c)
      (hcall : s.system.db.calls[c]? = some (.admitEvent args (.failed e))) :
      Steps s (.reply i) { s with posts := s.posts.set i (post.answer sha256 (.error e)) }
  | lost {i c : ℕ} {post : Post F} {e : SqlxError}
      (hi : s.posts[i]? = some post) (hc : post.awaits = some c) :
      Steps s (.lose i e)
        { s with posts := s.posts.set i (post.answer sha256 (.error (.ofSqlx e))) }
  | system {b : SystemAct} {system : System} (hb : b.isHandlers = false)
      (h : s.system.step b = some system) : Steps s (.system b) { s with system := system }

theorem step_spec (h : step sha256 s a = some s') : Steps sha256 s a s' := by
  cases a with
  | post r =>
    simp only [step] at h
    split at h
    · rename_i e hv
      exact Option.some.inj h ▸ .refuse hv
    · rename_i event key hv
      obtain ⟨system, hsystem, h⟩ := Option.bind_eq_some_iff.mp h
      exact Option.some.inj h ▸ .accept hv hsystem
  | reply i =>
    obtain ⟨post, hi, h⟩ := Option.bind_eq_some_iff.mp h
    obtain ⟨c, hc, h⟩ := Option.bind_eq_some_iff.mp h
    split at h
    · rename_i args o hcall
      obtain ⟨system, hsystem, h⟩ := Option.bind_eq_some_iff.mp h
      exact Option.some.inj h ▸ .reply hi hc hcall hsystem
    · rename_i args e hcall
      exact Option.some.inj h ▸ .failed hi hc hcall
    · cases h
  | lose i e =>
    obtain ⟨post, hi, h⟩ := Option.bind_eq_some_iff.mp h
    obtain ⟨c, hc, h⟩ := Option.bind_eq_some_iff.mp h
    exact Option.some.inj h ▸ .lost hi hc
  | system b =>
    simp only [step] at h
    split_ifs at h with hb
    obtain ⟨system, hsystem, rfl⟩ := Option.map_eq_some_iff.mp h
    exact .system (by simpa using hb) hsystem

variable {sha256}

theorem Steps.system_step (h : Steps sha256 s a s') :
    s'.system = s.system ∨ ∃ b, s.system.step b = some s'.system := by
  cases h with
  | refuse | failed | lost => exact .inl rfl
  | accept hv h | reply hi hc hcall h | system hb h => exact .inr ⟨_, h⟩

theorem step_reaches (h : step sha256 s a = some s') :
    Reaches System.step s.system s'.system := by
  rcases (step_spec sha256 h).system_step with heq | ⟨b, hb⟩
  · rw [heq]
    exact .refl _
  · exact .single hb

theorem reaches_system (h : Reaches (step sha256) s s') :
    Reaches System.step s.system s'.system :=
  h.project Service.system fun _ _ _ ha => step_reaches ha

/-- **Projection.** Under the requests runs the system of workers and store. -/
theorem Reachable.system (h : s.Reachable sha256) : s.system.Reachable := by
  obtain ⟨clock, hs⟩ := h
  exact ⟨clock, reaches_system hs⟩

theorem Reachable.trans (h : s.Reachable sha256) (hrun : Reaches (step sha256) s s') :
    s'.Reachable sha256 := by
  obtain ⟨clock, hs⟩ := h
  exact ⟨clock, hs.trans hrun⟩

theorem Steps.carries (h : Steps sha256 s a s') : s.system.db.Carries s'.system.db := by
  rcases h.system_step with heq | ⟨b, hb⟩
  · rw [heq]
    exact .refl _
  · exact (System.step_spec hb).extends.carries

end Steps

end Service

/-! ## Requests and calls -/

theorem Call.of_request_admitEvent {call : Call} {args : AdmitArgs}
    (h : call.request = .admitEvent args) : ∃ p, call = .admitEvent args p := by
  cases call with
  | admitEvent args' p =>
    obtain rfl := Request.admitEvent.inj h
    exact ⟨p, rfl⟩
  | _ => cases h

section Backed

variable {F : Type}

theorem Post.awaits_eq_some {post : Post F} {c : ℕ} (h : post.awaits = some c) :
    post.call = some c ∧ post.response = none := by
  unfold awaits at h
  split_ifs at h with hnone
  exact ⟨h, Option.isNone_iff_eq_none.mp hnone⟩

variable [SerdeJson F] (sha256 : List UInt8 → RequestFingerprint)

/-- What a request may have been told of its admission. -/
def Progress.Tells (p : Progress AdmitStage AdmitOutcome)
    (response : Except ApiError AcceptedResponse) : Prop :=
  (∃ o, p = .returned o ∧ response = respond o) ∨ ∃ e, response = .error (storeError e)

/-- A request was refused by validation, or its answer is that of its admission. -/
inductive Post.Backed (db : Database) (post : Post F) : Prop
  | refused {e : ApiError} (hv : post.submission.validate = .error e) (hcall : post.call = none)
      (hresponse : post.response = some (.error e))
  | admitted {event : Event (Value F)} {key : IdempotencyKey} {c : ℕ}
      {p : Progress AdmitStage AdmitOutcome} (hv : post.submission.validate = .ok (event, key))
      (hcall : post.call = some c)
      (hc : db.calls[c]? = some (.admitEvent (admission sha256 event key) p))
      (htells : ∀ response ∈ post.response, p.Tells response)

variable {sha256}

theorem Post.Backed.mono {db db' : Database} {post : Post F} (h : post.Backed sha256 db)
    (hcarries : db.Carries db') : post.Backed sha256 db' := by
  cases h with
  | refused hv hcall hresponse => exact .refused hv hcall hresponse
  | @admitted event key c p hv hcall hc htells =>
    obtain ⟨call', hc', hreq, hsame⟩ := hcarries c _ hc
    obtain ⟨p', rfl⟩ := Call.of_request_admitEvent hreq
    refine .admitted hv hcall hc' fun response hresponse => ?_
    rcases htells response hresponse with ⟨o, rfl, ho⟩ | herror
    · obtain rfl := (Call.admitEvent.inj (hsame rfl)).2
      exact .inl ⟨o, rfl, ho⟩
    · exact .inr herror

theorem Post.Backed.awaiting {db : Database} {post : Post F} (h : post.Backed sha256 db)
    {c : ℕ} (hc : post.awaits = some c) :
    ∃ event key p, post.submission.validate = .ok (event, key) ∧
      db.calls[c]? = some (.admitEvent (admission sha256 event key) p) := by
  obtain ⟨hcall, -⟩ := Post.awaits_eq_some hc
  cases h with
  | refused hv hnone hresponse => cases hnone.symm.trans hcall
  | admitted hv hcall' hc' htells =>
    obtain rfl := Option.some.inj (hcall'.symm.trans hcall)
    exact ⟨_, _, _, hv, hc'⟩

theorem Post.Backed.error {db : Database} {post : Post F} (h : post.Backed sha256 db) {c : ℕ}
    (hc : post.awaits = some c) (e : StoreError) :
    (post.answer sha256 (.error e)).Backed sha256 db := by
  obtain ⟨event, key, p, hv, hcall⟩ := h.awaiting hc
  refine .admitted hv (Post.awaits_eq_some hc).1 hcall fun response hresponse => .inr ⟨e, ?_⟩
  rw [← Option.some.inj hresponse, ingest_of_valid sha256 hv]
  rfl

theorem Post.Backed.reply {db db' : Database} {post : Post F} (h : post.Backed sha256 db)
    {c : ℕ} (hc : post.awaits = some c) {args : AdmitArgs} {o : AdmitOutcome}
    (hcall : db.calls[c]? = some (.admitEvent args (.committed o)))
    (hstep : db.step (.signal c .reply) = some db') :
    (post.answer sha256 (.ok o)).Backed sha256 db' := by
  obtain ⟨event, key, p, hv, hcall'⟩ := h.awaiting hc
  obtain ⟨rfl, rfl⟩ := Call.admitEvent.inj (Option.some.inj (hcall'.symm.trans hcall))
  refine .admitted hv (Post.awaits_eq_some hc).1 (Database.step_signal hcall rfl hstep)
    fun response hresponse => .inl ⟨o, rfl, ?_⟩
  rw [← Option.some.inj hresponse, ingest_of_valid sha256 hv]
  rfl

end Backed

namespace Service

section Consistent

variable {F : Type} {s s' : Service F} {a : ServiceAct F}

theorem getElem?_posts_set {i j : ℕ} {post p q : Post F} (hi : s.posts[i]? = some post)
    (hcall : q.call = post.call) (hj : (s.posts.set i q)[j]? = some p) :
    ∃ p', s.posts[j]? = some p' ∧ p'.call = p.call := by
  rw [List.getElem?_set] at hj
  split_ifs at hj with hij hlt
  · obtain rfl := Option.some.inj hj
    exact ⟨post, hij ▸ hi, hcall.symm⟩
  · exact ⟨p, hj, rfl⟩

theorem mem_posts_set {i : ℕ} {post q : Post F} (hi : s.posts[i]? = some post)
    (hcall : q.call = post.call) {p : Post F} (hp : p ∈ s.posts) :
    ∃ p' ∈ s.posts.set i q, p'.call = p.call := by
  obtain ⟨j, hj⟩ := List.mem_iff_getElem?.mp hp
  by_cases hij : i = j
  · subst hij
    obtain rfl := Option.some.inj (hi.symm.trans hj)
    exact ⟨q, List.mem_set (List.getElem?_eq_some_iff.mp hi).1 q, hcall⟩
  · exact ⟨p, List.mem_of_getElem? (by rwa [List.getElem?_set_ne hij]), rfl⟩

variable [SerdeJson F] (sha256 : List UInt8 → RequestFingerprint)

/-- Requests and admissions belong together. -/
structure Consistent (s : Service F) : Prop where
  backed : ∀ post ∈ s.posts, post.Backed sha256 s.system.db
  calls : ∀ (i j : ℕ) (p q : Post F) (c : ℕ), s.posts[i]? = some p → s.posts[j]? = some q →
    p.call = some c → q.call = some c → i = j
  owned : ∀ (c : ℕ) (args : AdmitArgs) (p : Progress AdmitStage AdmitOutcome),
    s.system.db.calls[c]? = some (.admitEvent args p) → ∃ post ∈ s.posts, post.call = some c

variable {sha256}

theorem admission_origin {t t' : System} {b : SystemAct} (h : System.Steps t b t') {c : ℕ}
    {args : AdmitArgs} {p : Progress AdmitStage AdmitOutcome}
    (hc : t'.db.calls[c]? = some (.admitEvent args p)) :
    (∃ p', t.db.calls[c]? = some (.admitEvent args p')) ∨
      (c = t.db.calls.length ∧ b = .store (.begin (.admitEvent args))) := by
  have hold : ∀ {act : Act} {db : Database}, t.db.step act = some db →
      db.calls[c]? = some (.admitEvent args p) →
      (∃ p', t.db.calls[c]? = some (.admitEvent args p')) ∨
        (c = t.db.calls.length ∧ act = .begin (.admitEvent args)) := by
    intro act db hact hdb
    rcases (Database.step_spec hact).call_origin hdb with ⟨call, hcall, hreq⟩ | hnew
    · obtain ⟨p', rfl⟩ := Call.of_request_admitEvent hreq
      exact .inl ⟨p', hcall⟩
    · exact .inr hnew
  cases h with
  | store hown hact =>
    rcases hold hact hc with h | ⟨hlast, rfl⟩
    · exact .inl h
    · exact .inr ⟨hlast, rfl⟩
  | start hpos => exact .inl ⟨p, hc⟩
  | worker hw hlive hstep hdb =>
    cases hdb with
    | alone hlocal => exact .inl ⟨p, hc⟩
    | claimSent hact | claimReturned _ _ _ hact | completeSent _ hact
    | completeReturned _ _ _ hact =>
      -- workers begin claims and completions only
      rcases hold hact hc with h | ⟨-, hact⟩
      · exact .inl h
      · cases hact

theorem Consistent.set (hs : s.Consistent sha256) {i : ℕ} {post q : Post F} {system : System}
    (hi : s.posts[i]? = some post) (hcall : q.call = post.call)
    (hq : q.Backed sha256 system.db) (hcarries : s.system.db.Carries system.db)
    (horigin : ∀ (c : ℕ) (args : AdmitArgs) (p : Progress AdmitStage AdmitOutcome),
      system.db.calls[c]? = some (.admitEvent args p) →
        ∃ p', s.system.db.calls[c]? = some (.admitEvent args p')) :
    Consistent sha256 ⟨system, s.posts.set i q⟩ := by
  refine ⟨fun p hp => ?_, fun j k p p' c hj hk hpc hpc' => ?_, fun c args p hc => ?_⟩
  · rcases List.mem_or_eq_of_mem_set hp with hp | rfl
    · exact (hs.backed p hp).mono hcarries
    · exact hq
  · obtain ⟨u, hu, huc⟩ := getElem?_posts_set hi hcall hj
    obtain ⟨u', hu', huc'⟩ := getElem?_posts_set hi hcall hk
    exact hs.calls j k u u' c hu hu' (huc.trans hpc) (huc'.trans hpc')
  · obtain ⟨p', hc'⟩ := horigin c args p hc
    obtain ⟨u, hu, huc⟩ := hs.owned c args p' hc'
    obtain ⟨u', hu', huc'⟩ := mem_posts_set hi hcall hu
    exact ⟨u', hu', huc'.trans huc⟩

theorem Consistent.call_lt (hs : s.Consistent sha256) {post : Post F} (hpost : post ∈ s.posts)
    {c : ℕ} (hc : post.call = some c) : c < s.system.db.calls.length := by
  cases hs.backed post hpost with
  | refused hv hcall hresponse => cases hcall.symm.trans hc
  | admitted hv hcall hcall' htells =>
    obtain rfl := Option.some.inj (hcall.symm.trans hc)
    exact (List.getElem?_eq_some_iff.mp hcall').1

theorem Consistent.append_calls (hs : s.Consistent sha256) {post : Post F}
    (hpost : ∀ c ∈ post.call, s.system.db.calls.length ≤ c) {j k : ℕ} {p q : Post F} {c : ℕ}
    (hj : (s.posts ++ [post])[j]? = some p) (hk : (s.posts ++ [post])[k]? = some q)
    (hp : p.call = some c) (hq : q.call = some c) : j = k := by
  have hcases : ∀ {i : ℕ} {u : Post F}, (s.posts ++ [post])[i]? = some u → u.call = some c →
      s.posts[i]? = some u ∧ c < s.system.db.calls.length ∨
        i = s.posts.length ∧ s.system.db.calls.length ≤ c := by
    intro i u hi hu
    rw [List.getElem?_append] at hi
    split_ifs at hi with hlt
    · exact .inl ⟨hi, hs.call_lt (List.mem_of_getElem? hi) hu⟩
    · rw [List.getElem?_singleton] at hi
      split_ifs at hi with hzero
      obtain rfl := Option.some.inj hi
      exact .inr ⟨by omega, hpost c hu⟩
  rcases hcases hj hp with ⟨hj, hlt⟩ | ⟨rfl, hle⟩ <;>
    rcases hcases hk hq with ⟨hk, hlt'⟩ | ⟨rfl, hle'⟩
  · exact hs.calls j k p q c hj hk hp hq
  · omega
  · omega
  · rfl

theorem consistent_step (h : Steps sha256 s a s') (hs : s.Consistent sha256) :
    s'.Consistent sha256 := by
  have hcarries := h.carries
  cases h with
  | @refuse r e hv =>
    refine ⟨fun p hp => ?_, fun j k p q c hj hk hpc hqc => ?_, fun c args p hc => ?_⟩
    · rcases List.mem_append.mp hp with hp | hp
      · exact hs.backed p hp
      · obtain rfl := List.mem_singleton.mp hp
        exact .refused hv rfl rfl
    · exact hs.append_calls (fun c hc => by cases hc) hj hk hpc hqc
    · obtain ⟨u, hu, huc⟩ := hs.owned c args p hc
      exact ⟨u, List.mem_append_left _ hu, huc⟩
  | @accept r event key system hv h =>
    have hlast : system.db.calls[s.system.db.calls.length]? =
        some (.admitEvent (admission sha256 event key)
          (.running (.begun s.system.db.clock))) := by
      obtain rfl := Option.some.inj h
      exact List.getElem?_concat_length
    refine ⟨fun p hp => ?_, fun j k p q c hj hk hpc hqc => ?_, fun c args p hc => ?_⟩
    · rcases List.mem_append.mp hp with hp | hp
      · exact (hs.backed p hp).mono hcarries
      · obtain rfl := List.mem_singleton.mp hp
        exact .admitted hv rfl hlast fun response hresponse => (by cases hresponse)
    · refine hs.append_calls (fun c hc => ?_) hj hk hpc hqc
      exact (Option.some.inj hc).le
    · rcases admission_origin (System.step_spec h) hc with ⟨p', hc'⟩ | ⟨rfl, -⟩
      · obtain ⟨u, hu, huc⟩ := hs.owned c args p' hc'
        exact ⟨u, List.mem_append_left _ hu, huc⟩
      · exact ⟨_, List.mem_append_right _ (List.mem_singleton.mpr rfl), rfl⟩
  | @reply i c post args o system hi hc hcall h =>
    obtain ⟨db, hdb, rfl⟩ : ∃ db, s.system.db.step (.signal c .reply) = some db ∧
        system = { s.system with db := db } := by
      cases System.step_spec h with
      | store hown hact => exact ⟨_, hact, rfl⟩
    refine hs.set hi rfl ((hs.backed post (List.mem_of_getElem? hi)).reply hc hcall hdb) hcarries ?_
    intro d args' p hd
    rcases admission_origin (System.step_spec h) hd with hold | ⟨-, hact⟩
    · exact hold
    · cases hact
  | failed hi hc | lost hi hc =>
    exact hs.set hi rfl ((hs.backed _ (List.mem_of_getElem? hi)).error hc _) hcarries
      fun c args p hc => ⟨p, hc⟩
  | system hb h =>
    refine ⟨fun p hp => (hs.backed p hp).mono hcarries, hs.calls, fun c args p hc => ?_⟩
    rcases admission_origin (System.step_spec h) hc with ⟨p', hc'⟩ | ⟨-, rfl⟩
    · exact hs.owned c args p' hc'
    · cases hb

theorem Reachable.consistent (h : s.Reachable sha256) : s.Consistent sha256 := by
  obtain ⟨clock, hs⟩ := h
  have hempty : (empty clock : Service F).Consistent sha256 :=
    ⟨fun p hp => (by cases hp), fun i j p q c hi => (by cases hi), fun c args p hc => (by cases hc)⟩
  exact hs.invariant hempty fun t a t' _ ht ha => consistent_step (step_spec sha256 ha) ht

theorem Reachable.posted (h : s.Reachable sha256) {c : ℕ} {args : AdmitArgs}
    {p : Progress AdmitStage AdmitOutcome}
    (hc : s.system.db.calls[c]? = some (.admitEvent args p)) :
    ∃ (i : ℕ) (post : Post F) (event : Event (Value F)) (key : IdempotencyKey),
      s.posts[i]? = some post ∧ post.call = some c ∧
      post.submission.validate = .ok (event, key) ∧ args = admission sha256 event key ∧
      ∀ response ∈ post.response, p.Tells response := by
  obtain ⟨post, hpost, hcall⟩ := h.consistent.owned c args p hc
  obtain ⟨i, hi⟩ := List.mem_iff_getElem?.mp hpost
  cases h.consistent.backed post hpost with
  | refused hv hnone hresponse => cases hnone.symm.trans hcall
  | admitted hv hcall' hc' htells =>
    obtain rfl := Option.some.inj (hcall'.symm.trans hcall)
    obtain ⟨rfl, rfl⟩ := Call.admitEvent.inj (Option.some.inj (hc'.symm.trans hc))
    exact ⟨i, post, _, _, hi, hcall, hv, rfl, htells⟩

/-- All admissions come from the API. -/
theorem Reachable.fromApi (h : s.Reachable sha256) : s.system.db.FromApi := by
  intro c args p hc
  obtain ⟨i, post, event, key, -, -, hv, rfl, -⟩ := h.posted hc
  obtain ⟨-, request, -, hevent⟩ := Submission.validate_eq_ok hv
  exact ⟨event, key, _, ⟨_, _, _, _, _, hevent⟩, rfl⟩

end Consistent

end Service

end PulseStream
