import PulseStream.Store.Chronology
import PulseStream.Store.Get
import PulseStream.System.Guarantees

/-!
# What a client sees of an event

A client that was given the id of an event reads it with `Store::get`. Whatever the API and the
workers do between two reads, the second one shows the same event, not further back than the first
(`view_moves_forward`). On a clock that does not go back, the event is processed after it was
accepted: its completion is sent by a task whose claim was returned before, and so starts after the
admission has committed (`Forward.dated`).
-/

namespace PulseStream

open Machine

/-- What a client may see after `v`. -/
structure EventRecord.Leads (v v' : EventRecord) : Prop where
  source : v'.source = v.source
  eventType : v'.eventType = v.eventType
  acceptedAt : v'.acceptedAt = v.acceptedAt
  status : v.status.rank ≤ v'.status.rank
  processedAt : ∀ t, v.processedAt = some t → v'.processedAt = some t

/-! ## Records of rows -/

section Record

variable (toChar : Timestamp → String) {r r' : Row}

theorem Row.WellFormed.processedAt_iff (h : r.WellFormed) :
    r.processedAt.isSome = true ↔ r.status = .processed := by
  rcases h.checks.2 with hl | hl | hl
  · simp [hl.1, hl.2.2.2.2]
  · simp [hl.1, hl.2.2.2.2.1]
  · simp [hl.1, Option.isSome_iff_ne_none, hl.2.2.2.1]

theorem Row.Later.leads (h : r.Later r') (hwf : r.WellFormed) {v v' : EventRecord}
    (hv : r.record toChar = .ok v) (hv' : r'.record toChar = .ok v') : v.Leads v' := by
  rw [Row.record_eq] at hv hv'
  obtain rfl := Except.ok.inj hv
  obtain rfl := Except.ok.inj hv'
  refine ⟨?_, ?_, ?_, h.status, fun t ht => ?_⟩
  · exact congrArg Content.source h.content
  · exact congrArg Content.eventType h.content
  · exact congrArg (fun x : Content => toChar x.acceptedAt) h.content
  · obtain ⟨p, hp, rfl⟩ := Option.map_eq_some_iff.mp ht
    have hdone := hwf.processedAt_iff.mp (by rw [hp]; rfl)
    rw [h.final hdone]
    exact ht

namespace Database

variable {s : Database}

theorem get_of_mem (hs : s.Sound) (hr : r ∈ s.events) {v : EventRecord}
    (hv : r.record toChar = .ok v) : s.get toChar r.eventId = .ok (some v) := by
  have hrow : s.rowOf r.eventId = some r := Table.lookup_of_mem hs.ids hr
  simp only [get, hrow, hv]
  rfl

end Database

end Record

/-! ## The admission of an event -/

namespace Database

variable {s : Database}

/-- The event `id` was inserted by an admission with these parameters. -/
def AdmittedWith (s : Database) (id : EventId) (args : AdmitArgs) : Prop :=
  ∃ (i : ℕ) (p : Progress AdmitStage AdmitOutcome) (row : Row),
    s.calls[i]? = some (.admitEvent args p) ∧ ⟨i, .insert, row⟩ ∈ s.log ∧ row.eventId = id

theorem Reachable.insert_admitted (h : s.Reachable) {i : ℕ} {row : Row}
    (hw : (⟨i, .insert, row⟩ : Write) ∈ s.log) :
    ∃ args p now, s.calls[i]? = some (.admitEvent args p) ∧ args.checkedRow now = .ok row := by
  obtain ⟨call, hcall, hauth⟩ := h.accounted.authors _ hw
  cases call with
  | admitEvent args p =>
    obtain ⟨-, now, hrow⟩ := hauth
    exact ⟨args, p, now, hcall, hrow⟩
  | claim args p =>
    obtain ⟨now, previous, hop⟩ := hauth
    cases hop
  | complete args p =>
    obtain ⟨⟨now, hop⟩, -⟩ := hauth
    cases hop

theorem Reachable.row_admitted (h : s.Reachable) {r : Row} (hr : r ∈ s.events) :
    ∃ args, s.AdmittedWith r.eventId args ∧ r.source = args.source ∧
      r.eventType = args.eventType ∧ r.scope = args.scope ∧
      r.requestFingerprint = args.requestFingerprint := by
  have htrail := h.traced.trail r hr
  obtain ⟨i, -, -, row, rest, -, hhist, -⟩ := htrail.created
  have hmem : (⟨i, .insert, row⟩ : Write) ∈ s.history r.eventId := by
    rw [hhist]
    exact List.mem_cons_self
  obtain ⟨hlog, hid⟩ := mem_history.mp hmem
  obtain ⟨args, p, now, hcall, hrow⟩ := h.insert_admitted hlog
  have hcontent : row.toContent = r.toContent := htrail.content _ hmem
  obtain ⟨-, -, payload, -, rfl⟩ := AdmitArgs.checkedRow_eq_ok.mp hrow
  refine ⟨args, ⟨i, p, _, hcall, hlog, hid⟩, ?_, ?_, ?_, ?_⟩
  · exact (congrArg Content.source hcontent).symm
  · exact (congrArg Content.eventType hcontent).symm
  · exact (congrArg Content.scope hcontent).symm
  · exact (congrArg Content.requestFingerprint hcontent).symm

theorem Reachable.created_admitted (h : s.Reachable) {c : ℕ} {args args' : AdmitArgs}
    {p : Progress AdmitStage AdmitOutcome} {id : EventId}
    (hc : s.calls[c]? = some (.admitEvent args p)) (hp : p.answer = some (.created id))
    (hargs : s.AdmittedWith id args') : args' = args := by
  obtain ⟨row, hwritten, hid⟩ := h.outcome_written hc hp
  obtain ⟨i, q, row', hi, hlog', hid'⟩ := hargs
  have hlog : (⟨c, .insert, row⟩ : Write) ∈ s.log :=
    (mem_written.mp (hwritten ▸ List.mem_singleton.mpr rfl :
      (⟨c, .insert, row⟩ : Write) ∈ s.written c)).1
  obtain rfl : i = c :=
    congrArg Write.call (h.insert_unique hlog' hlog rfl rfl (hid'.trans hid.symm))
  exact (Call.admitEvent.inj (Option.some.inj (hi.symm.trans hc))).1

theorem Reachable.answered_row (h : s.Reachable) {c : ℕ} {args : AdmitArgs}
    {p : Progress AdmitStage AdmitOutcome} {o : AdmitOutcome} {id : EventId}
    (hc : s.calls[c]? = some (.admitEvent args p)) (hp : p.answer = some o)
    (ho : o = .created id ∨ o = .replayed id) :
    ∃ r ∈ s.events, r.eventId = id ∧ r.scope = args.scope ∧
      (o = .replayed id → r.requestFingerprint = args.requestFingerprint) := by
  obtain ⟨r, hr, hscope, hholds⟩ := h.outcome_holds hc hp
  rcases ho with rfl | rfl
  · exact ⟨r, hr, hholds, hscope, fun hreplayed => (by cases hreplayed)⟩
  · exact ⟨r, hr, hholds.1, hscope, fun _ => hholds.2⟩

end Database

/-! ## Runs on a clock that does not go back -/

namespace System

variable {F : Type} [SerdeJson F] {s s' : System} {a : SystemAct}

/-- The action does not set the clock back. -/
def keepsTime (s : System) : SystemAct → Bool
  | .store (.tick now) => s.db.clock ≤ now
  | _ => true

def stepForward (s : System) (a : SystemAct) : Option System :=
  if s.keepsTime a then s.step a else none

/-- `s` is reached on a clock that does not go back. -/
def Forward (s : System) : Prop := ∃ clock, Reaches stepForward (empty clock) s

theorem stepForward_some (h : s.stepForward a = some s') :
    s.keepsTime a = true ∧ s.step a = some s' := by
  unfold stepForward at h
  split_ifs at h with htime
  exact ⟨htime, h⟩

theorem Forward.reachable (h : s.Forward) : s.Reachable := by
  obtain ⟨clock, hs⟩ := h
  exact ⟨clock, hs.project id fun t a t' ha => .single (stepForward_some ha).2⟩

theorem Reachable.task_row (h : s.Reachable) {k : ℕ} {w : Worker} (hw : s.workers[k]? = some w)
    {t : Task} (ht : t ∈ w.tasks) : ∃ r ∈ s.db.events, r.eventId = t.claim.event.id := by
  obtain ⟨g, hg, -⟩ := h.task_claim hw ht
  obtain ⟨hlog, hid⟩ := Database.mem_history.mp hg
  obtain ⟨r, hr, hrid⟩ := h.db.traced.known g hlog
  exact ⟨r, hr, hrid.trans hid⟩

/-- Every step keeps the times in order: a completion is sent for an event that was claimed. -/
theorem dated_forward (hs : s.Reachable) (htime : s.keepsTime a = true) (h : Steps s a s')
    (ht : s.db.Dated) : s'.db.Dated := by
  have hsound := hs.db.sound
  cases h with
  | @store a db hown hact =>
    refine Database.dated_step (Database.step_spec hact) hsound ht ?_ ?_
    · rintro now rfl
      simpa [keepsTime] using htime
    · rintro args rfl
      cases hown
  | start hpos => exact ht
  | @worker k b w w' db hw hlive hstep hdb =>
    cases hdb with
    | alone hlocal => exact ht
    | completeSent htask hact =>
      refine Database.dated_step (Database.step_spec hact) hsound ht (fun now h => by cases h) ?_
      rintro args hargs
      obtain rfl := Request.complete.inj (Act.begin.inj hargs)
      exact hs.task_row hw (Worker.task_mem htask)
    | claimSent hact | claimReturned _ _ _ hact | completeReturned _ _ _ hact =>
      exact Database.dated_step (Database.step_spec hact) hsound ht (fun now h => by cases h)
        fun args h => by cases h

theorem Forward.dated (h : s.Forward) : s.db.Dated := by
  obtain ⟨clock, hs⟩ := h
  refine hs.invariant (P := fun t => t.db.Dated) (Database.dated_empty clock) ?_
  intro t a t' ht hdated ha
  obtain ⟨htime, hstep⟩ := stepForward_some ha
  have hreach : t.Forward := ⟨clock, ht⟩
  exact dated_forward hreach.reachable htime (step_spec hstep) hdated

/-! ## The view -/

/-- **A client's view only moves forward.** Once an admission was answered with the id of an event,
every read finds the event, with the source and the type it was admitted with; a later read shows it
no further back; it has a time of processing exactly if it is processed; and on a clock that does
not go back, that time is not before the event was accepted. -/
theorem view_moves_forward (toChar : Timestamp → String) (h : s.Reachable) {c : ℕ}
    {args : AdmitArgs} {p : Progress AdmitStage AdmitOutcome} {o : AdmitOutcome} {id : EventId}
    (hc : s.db.calls[c]? = some (.admitEvent args p)) (hp : p.answer = some o)
    (ho : o = .created id ∨ o = .replayed id) {s₁ s₂ : System} (hrun₁ : Reaches step s s₁)
    (hrun₂ : Reaches step s₁ s₂) :
    ∃ (v₁ v₂ : EventRecord) (r₂ : Row) (admitted : AdmitArgs),
      s₁.db.get toChar id = .ok (some v₁) ∧ s₂.db.get toChar id = .ok (some v₂) ∧
      (s.db.AdmittedWith id admitted ∧ (o = .created id → admitted = args) ∧
        admitted.scope = args.scope ∧
        (o = .replayed id → admitted.requestFingerprint = args.requestFingerprint)) ∧
      (v₁.source = admitted.source ∧ v₁.eventType = admitted.eventType) ∧ v₁.Leads v₂ ∧
      (v₂.processedAt.isSome = true ↔ v₂.status = .processed) ∧
      (s₂.db.rowOf id = some r₂ ∧ v₂.acceptedAt = toChar r₂.acceptedAt ∧
        v₂.processedAt = r₂.processedAt.map toChar) ∧
      (s₂.Forward → ∀ processed ∈ r₂.processedAt, r₂.acceptedAt ≤ processed) := by
  have h₁ := h.trans hrun₁
  have h₂ := h₁.trans hrun₂
  -- the row in the three states
  obtain ⟨r, hr, rfl, hscope, hfingerprint⟩ := h.db.answered_row hc hp ho
  obtain ⟨r₁, hr₁, hlater₁⟩ := h.db.later (reaches_db hrun₁) hr
  obtain ⟨r₂, hr₂, hlater₂⟩ := h₁.db.later (reaches_db hrun₂) hr₁
  have hid₁ : r₁.eventId = r.eventId := congrArg Content.eventId hlater₁.content
  have hid₂ : r₂.eventId = r.eventId :=
    congrArg Content.eventId (hlater₁.trans hlater₂).content
  obtain ⟨admitted, hadmitted, hsource, htype, hscope', hfingerprint'⟩ := h.db.row_admitted hr
  have hwf₂ := h₂.db.wellFormed hr₂
  have hv₁ := r₁.record_eq toChar
  have hv₂ := r₂.record_eq toChar
  refine ⟨_, _, r₂, admitted, hid₁ ▸ Database.get_of_mem toChar h₁.db.sound hr₁ hv₁,
    hid₂ ▸ Database.get_of_mem toChar h₂.db.sound hr₂ hv₂,
    ⟨hadmitted, ?_, hscope'.symm.trans hscope,
      fun ho => hfingerprint'.symm.trans (hfingerprint ho)⟩,
    ⟨?_, ?_⟩, hlater₂.leads toChar (h₁.db.wellFormed hr₁) hv₁ hv₂, ?_, ⟨?_, rfl, rfl⟩, ?_⟩
  · rintro rfl
    exact h.db.created_admitted hc hp hadmitted
  · exact (congrArg Content.source hlater₁.content).trans hsource
  · exact (congrArg Content.eventType hlater₁.content).trans htype
  · rw [Option.isSome_map]
    exact hwf₂.processedAt_iff
  · rw [← hid₂]
    exact Table.lookup_of_mem h₂.db.sound.ids hr₂
  · intro hforward processed hprocessed
    exact (hforward.dated.rows r₂ hr₂).2 processed hprocessed

end System

namespace System

attribute [local instance] SampleFloat.serde

/-- The id of the event that is claimed twice is given out at time 0. Read while a completion has
locked it, the event is being processed; read after that, it was processed at time 10. -/
theorem view_moves_forward_overtaken :
    ∃ s s₁ s₂ v₁ v₂ r₂, run step (empty 0) (overtakenRun.take 4) = some s ∧
      run step s (overtakenRun.drop 4) = some s₁ ∧ run step s₁ overtakenEnd = some s₂ ∧
      s₁.db.get toString ⟨7⟩ = .ok (some v₁) ∧ s₂.db.get toString ⟨7⟩ = .ok (some v₂) ∧
      v₁.Leads v₂ ∧ s₂.db.rowOf ⟨7⟩ = some r₂ ∧ r₂.processedAt = some 10 ∧
      s₂.Forward ∧ r₂.acceptedAt ≤ 10 := by
  have hobs : (run step (empty 0) (overtakenRun.take 4)).bind (fun s =>
      (run step s (overtakenRun.drop 4)).bind fun s₁ => (run step s₁ overtakenEnd).map fun s₂ =>
        (s.db.calls[0]?, (s₂.db.rowOf ⟨7⟩).map (·.processedAt),
          decide (run stepForward (empty 0) (overtakenRun ++ overtakenEnd) = some s₂))) =
      some (some (.admitEvent ⟨⟨7⟩, "orders-api", "order.created", .bool true, "k",
        List.replicate 32 0⟩ (.returned (.created ⟨7⟩))), some (some 10), true) := by
    decide +kernel
  obtain ⟨s, hs, hobs⟩ := Option.bind_eq_some_iff.mp hobs
  obtain ⟨s₁, hs₁, hobs⟩ := Option.bind_eq_some_iff.mp hobs
  obtain ⟨s₂, hs₂, hobs⟩ := Option.map_eq_some_iff.mp hobs
  obtain ⟨hc, hobs⟩ := Prod.mk.inj hobs
  obtain ⟨hrow, hforward⟩ := Prod.mk.inj hobs
  obtain ⟨r, hr, hprocessed⟩ := Option.map_eq_some_iff.mp hrow
  have hforward : s₂.Forward := ⟨0, _, of_decide_eq_true hforward⟩
  obtain ⟨v₁, v₂, r₂, -, hv₁, hv₂, -, -, hleads, -, ⟨hr₂, -⟩, htimes⟩ :=
    view_moves_forward toString ⟨0, _, hs⟩ hc rfl (.inl rfl) ⟨_, hs₁⟩ ⟨_, hs₂⟩
  obtain rfl := Option.some.inj (hr.symm.trans hr₂)
  exact ⟨s, s₁, s₂, v₁, v₂, r, hs, hs₁, hs₂, hv₁, hv₂, hleads, hr, hprocessed, hforward,
    htimes hforward 10 hprocessed⟩

end System

end PulseStream
