import PulseStream.Store.History

/-!
# Idempotent admission

Concurrent `Store::admit` calls on one `(source, idempotency_key)` agree on one winner:
`admission_agrees`. The invariant behind it is `Answered`: whatever a call has been told about a
key is still true of the row that holds the key.
-/

namespace PulseStream

/-- The outcome is true of the committed row of the key. -/
def AdmitOutcome.Holds (events : List Row) (args : AdmitArgs) (o : AdmitOutcome) : Prop :=
  ∃ r ∈ events, r.scope = args.scope ∧
    match o with
    | .created id => r.eventId = id
    | .replayed id => r.eventId = id ∧ r.requestFingerprint = args.requestFingerprint
    | .conflict => r.requestFingerprint ≠ args.requestFingerprint

/-- Outcomes speak of content only, so they stay true. -/
theorem AdmitOutcome.Holds.mono {events events' : List Row} {args : AdmitArgs} {o : AdmitOutcome}
    (h : o.Holds events args)
    (hkeep : ∀ r ∈ events, ∃ r' ∈ events', r'.toContent = r.toContent) : o.Holds events' args := by
  obtain ⟨r, hr, hscope, ho⟩ := h
  obtain ⟨r', hr', hcontent⟩ := hkeep r hr
  refine ⟨r', hr', hcontent ▸ hscope, ?_⟩
  rw [hcontent]
  exact ho

namespace Call

/-- The outcome an admission has come to. -/
def decided : Call → Option AdmitOutcome
  | .admitEvent _ (.running (.resolved o)) => some o
  | .admitEvent _ (.committed o) => some o
  | .admitEvent _ (.returned o) => some o
  | _ => none

/-- What an admission has found out is true of the table. -/
structure Answers (events : List Row) (call : Call) : Prop where
  taken : ∀ args, call = .admitEvent args (.running .taken) → ∃ r ∈ events, r.scope = args.scope
  decided : ∀ args o, call.request = .admitEvent args → call.decided = some o → o.Holds events args

theorem Answers.mono {events events' : List Row} {call : Call} (h : call.Answers events)
    (hkeep : ∀ r ∈ events, ∃ r' ∈ events', r'.toContent = r.toContent) : call.Answers events' := by
  refine ⟨fun args hcall => ?_, fun args o hreq ho => (h.decided args o hreq ho).mono hkeep⟩
  obtain ⟨r, hr, hscope⟩ := h.taken args hcall
  obtain ⟨r', hr', hcontent⟩ := hkeep r hr
  exact ⟨r', hr', hcontent ▸ hscope⟩

theorem Answers.of_undecided {events : List Row} {call : Call}
    (htaken : ∀ args, call ≠ .admitEvent args (.running .taken)) (h : call.decided = none) :
    call.Answers events :=
  ⟨fun args hcall => absurd hcall (htaken args), fun _ _ _ ho => absurd (h.symm.trans ho) (by simp)⟩

theorem start_answers (events : List Row) (now : Timestamp) (req : Request) :
    (req.start now).Answers events := by
  cases req with
  | admitEvent args => exact .of_undecided (by simp [Request.start]) rfl
  | claim args =>
    simp only [Request.start]
    split_ifs <;> exact .of_undecided (by simp) rfl
  | complete args => exact .of_undecided (by simp [Request.start]) rfl

theorem Answers.signal {events : List Row} {call call' : Call} {sig : Signal}
    (h : call.Answers events) (hsig : call.signal sig = some call') : call'.Answers events := by
  rcases Call.signal_some hsig with ⟨args, p, p', rfl, rfl, hp⟩ | ⟨args, p, p', rfl, rfl, hp⟩ |
    ⟨args, p, p', rfl, rfl, hp⟩
  · rcases Progress.signal_some hp with ⟨_, rfl⟩ | rfl | ⟨o, rfl, rfl⟩
    · exact .of_undecided (by simp) rfl
    · exact .of_undecided (by simp) rfl
    · exact ⟨by simp, h.decided⟩
  · exact .of_undecided (by simp) rfl
  · exact .of_undecided (by simp) rfl

end Call

namespace Database

variable {s s' : Database} {c : ℕ} {call call' : Call} {events : List Row} {ws : List Write}

theorem Transition.answers (hs : s.Sound) (hc : s.calls[c]? = some call)
    (h : Transition s c call call' events ws) (ha : call.Answers s.events) :
    call'.Answers events := by
  have hv := hs.calls c call hc
  cases h with
  | move h =>
    cases h with
    | taken hr hscope =>
      refine ⟨fun args hcall => ?_, fun _ _ _ ho => absurd ho (by simp [Call.decided])⟩
      cases hcall
      exact ⟨_, hr, hscope⟩
    | replayed hr hscope hf =>
      refine ⟨by simp, fun args o hreq ho => ?_⟩
      cases hreq
      cases ho
      exact ⟨_, hr, hscope, rfl, hf⟩
    | conflict hr hscope hf =>
      refine ⟨by simp, fun args o hreq ho => ?_⟩
      cases hreq
      cases ho
      exact ⟨_, hr, hscope, hf⟩
    | settled => exact ⟨by simp, ha.decided⟩
    | signal h => exact ha.signal h
    | _ => exact .of_undecided (by simp) rfl
  | @insert args row =>
    refine ⟨by simp, fun args' o hreq ho => ?_⟩
    cases hreq
    cases ho
    obtain ⟨now, hrow⟩ := hv.coherent
    exact ⟨row, by simp, (AdmitArgs.checkedRow_key hrow).1, rfl⟩
  | _ => exact .of_undecided (by simp) rfl

/-- Every admission is right about the row that holds its key. -/
def Answered (s : Database) : Prop :=
  ∀ (i : ℕ) (call : Call), s.calls[i]? = some call → call.Answers s.events

theorem answered_step {a : Act} (h : Steps s a s') (hs : s.Sound) (ha : s.Answered) :
    s'.Answered := by
  cases h with
  | tick now => exact ha
  | begin req =>
    intro i call hi
    rcases calls_append hi with ⟨-, rfl⟩ | ⟨-, hi'⟩
    · exact Call.start_answers _ _ _
    · exact ha i call hi'
  | call hc h =>
    intro i b hi
    rcases calls_setCall hi with ⟨rfl, rfl⟩ | ⟨-, hi'⟩
    · exact h.answers hs hc (ha i _ hc)
    · exact (ha i b hi').mono fun r hr => h.persists hs hc hr

theorem Reachable.answered (h : s.Reachable) : s.Answered := by
  refine h.invariant ?_ fun t a t' ht hans hstep => answered_step hstep ht.sound hans
  intro clock i call hi
  simp [empty] at hi

/-! ## One winner -/

theorem Reachable.outcome_holds (h : s.Reachable) {i : ℕ} {args : AdmitArgs}
    {p : Progress AdmitStage AdmitOutcome} {o : AdmitOutcome}
    (hi : s.calls[i]? = some (.admitEvent args p)) (ho : p.answer = some o) :
    o.Holds s.events args := by
  refine (h.answered i _ hi).decided args o rfl ?_
  cases p with
  | committed r => exact ho
  | returned r => exact ho
  | _ => cases ho

theorem Reachable.outcome_written (h : s.Reachable) {i : ℕ} {args : AdmitArgs}
    {p : Progress AdmitStage AdmitOutcome} {o : AdmitOutcome}
    (hi : s.calls[i]? = some (.admitEvent args p)) (ho : p.answer = some o) :
    match o with
    | .created id => ∃ row, s.written i = [⟨i, .insert, row⟩] ∧ row.eventId = id
    | .replayed _ => s.written i = []
    | .conflict => s.written i = [] := by
  have ha := h.accounted.accounts i _ hi
  cases p with
  | committed r | returned r =>
    obtain rfl := Option.some.inj ho
    cases r <;> exact ha
  | _ => cases ho

theorem Reachable.insert_unique (h : s.Reachable) {w w' : Write} (hw : w ∈ s.log)
    (hw' : w' ∈ s.log) (hop : w.op = .insert) (hop' : w'.op = .insert)
    (hid : w.row.eventId = w'.row.eventId) : w = w' := by
  obtain ⟨r, hr, hrid⟩ := h.traced.known w hw
  obtain ⟨c, args, now, row, rest, -, hhist, hrest⟩ := (h.traced.trail r hr).created
  have hfirst : ∀ v ∈ s.log, v.op = .insert → v.row.eventId = r.eventId →
      v = ⟨c, .insert, row⟩ := by
    intro v hv hvop hvid
    have hmem : v ∈ s.history r.eventId := mem_history.mpr ⟨hv, hvid⟩
    rw [hhist] at hmem
    rcases List.mem_cons.mp hmem with rfl | hmem
    · rfl
    · exact absurd hvop (hrest v hmem)
  rw [hfirst w hw hop hrid.symm, hfirst w' hw' hop' (hid ▸ hrid.symm)]

theorem Reachable.created_unique (h : s.Reachable) {i j : ℕ} {a b : AdmitArgs}
    {p q : Progress AdmitStage AdmitOutcome} {id id' : EventId}
    (hi : s.calls[i]? = some (.admitEvent a p)) (hj : s.calls[j]? = some (.admitEvent b q))
    (hscope : a.scope = b.scope) (hp : p.answer = some (.created id))
    (hq : q.answer = some (.created id')) : i = j := by
  obtain ⟨r, hr, hrs, hrid⟩ := h.outcome_holds hi hp
  obtain ⟨r', hr', hrs', hrid'⟩ := h.outcome_holds hj hq
  obtain rfl := h.sound.eq_of_scope hr hr' ((hrs.trans hscope).trans hrs'.symm)
  obtain ⟨row, hrow, hid⟩ := h.outcome_written hi hp
  obtain ⟨row', hrow', hid'⟩ := h.outcome_written hj hq
  have hw : (⟨i, .insert, row⟩ : Write) ∈ s.written i := hrow ▸ List.mem_singleton.mpr rfl
  have hw' : (⟨j, .insert, row'⟩ : Write) ∈ s.written j := hrow' ▸ List.mem_singleton.mpr rfl
  have heq := h.insert_unique (mem_written.mp hw).1 (mem_written.mp hw').1 rfl rfl
    (((hid.trans hrid.symm).trans hrid').trans hid'.symm)
  exact congrArg Write.call heq

theorem Reachable.resolve_taken (h : s.Reachable) {i : ℕ} {args : AdmitArgs}
    (hi : s.calls[i]? = some (.admitEvent args (.running .taken))) :
    ∃ r ∈ s.events, r.scope = args.scope ∧
      s.step (.advance i) = some (s.setCall i (.admitEvent args (.running (.resolved
        (if r.requestFingerprint = args.requestFingerprint then .replayed r.eventId
          else .conflict))))) := by
  obtain ⟨r, hr, hscope⟩ := (h.answered i _ hi).taken args rfl
  have hlookup : s.rowOfScope args.scope = some r := by
    have hl := Table.lookup_of_mem h.sound.scopes hr
    rwa [hscope] at hl
  refine ⟨r, hr, hscope, ?_⟩
  simp only [step, advance, hi, advanceAdmit, resolve, hlookup]
  split_ifs <;> rfl

theorem Steps.logged {a : Act} (h : Steps s a s') :
    ∃ i ws, s'.log = s.log ++ ws ∧ (∀ w ∈ ws, w.call = i) ∧ (ws = [] → s'.events = s.events) := by
  cases h with
  | tick now => exact ⟨0, [], by simp, by simp, fun _ => rfl⟩
  | begin req => exact ⟨0, [], by simp, by simp, fun _ => rfl⟩
  | @call _ c call call' events ws hc h =>
    refine ⟨c, ws, rfl, h.call_eq, fun hnil => ?_⟩
    cases h with
    | move h => rfl
    | insert => cases hnil
    | claim hdone hroom =>
      obtain rfl := List.map_eq_nil_iff.mp hnil
      exact List.map_id _
    | complete => cases hnil

/-- **Admission.** At most one committed row has a key and at most one call is told that it
created it; every id given out for the key is the id of that row; the losers are told apart by
their fingerprint, and have written nothing. -/
theorem admission_agrees (h : s.Reachable) :
    (∀ r ∈ s.events, ∀ r' ∈ s.events, r.scope = r'.scope → r = r') ∧
    (∀ (i j : ℕ) (a b : AdmitArgs) (p q : Progress AdmitStage AdmitOutcome) (id id' : EventId),
      s.calls[i]? = some (.admitEvent a p) → s.calls[j]? = some (.admitEvent b q) →
      a.scope = b.scope → p.answer = some (.created id) → q.answer = some (.created id') → i = j) ∧
    (∀ (i : ℕ) (args : AdmitArgs) (p : Progress AdmitStage AdmitOutcome) (o : AdmitOutcome),
      s.calls[i]? = some (.admitEvent args p) → p.answer = some o →
      ∃ r ∈ s.events, r.scope = args.scope ∧
        match o with
        | .created id => id = r.eventId
        | .replayed id => id = r.eventId ∧
            r.requestFingerprint = args.requestFingerprint ∧ s.written i = []
        | .conflict => r.requestFingerprint ≠ args.requestFingerprint ∧ s.written i = []) ∧
    (∀ (i : ℕ) (args : AdmitArgs), s.calls[i]? = some (.admitEvent args (.running .taken)) →
      ∃ r ∈ s.events, r.scope = args.scope ∧
        s.step (.advance i) = some (s.setCall i (.admitEvent args (.running (.resolved
          (if r.requestFingerprint = args.requestFingerprint then .replayed r.eventId
            else .conflict)))))) ∧
    (∀ (a : Act) (s' : Database), s.step a = some s' →
      ∃ i ws, s'.log = s.log ++ ws ∧ (∀ w ∈ ws, w.call = i) ∧
        (ws = [] → s'.events = s.events)) := by
  refine ⟨fun r hr r' hr' => h.sound.eq_of_scope hr hr', ?_, ?_,
    fun i args hi => h.resolve_taken hi, fun a s' hstep => (step_spec hstep).logged⟩
  · intro i j a b p q id id' hi hj hscope hp hq
    exact h.created_unique hi hj hscope hp hq
  · intro i args p o hi ho
    have hw := h.outcome_written hi ho
    obtain ⟨r, hr, hscope, hholds⟩ := h.outcome_holds hi ho
    refine ⟨r, hr, hscope, ?_⟩
    cases o with
    | created id => exact hholds.symm
    | replayed id => exact ⟨hholds.1.symm, hholds.2, hw⟩
    | conflict => exact ⟨hholds, hw⟩

/-- Three requests of one key, the second with another fingerprint. The last two wait for the first
to commit. -/
def race : List Act :=
  let args (id : ℕ) (fp : UInt8) : AdmitArgs :=
    ⟨⟨id⟩, "orders-api", "order.created", .bool true, "k", List.replicate 32 fp⟩
  [.begin (.admitEvent (args 1 0)), .begin (.admitEvent (args 2 1)),
    .begin (.admitEvent (args 3 0)),
    .advance 0, .advance 0, .advance 1, .advance 2, .advance 1, .advance 2, .advance 1, .advance 2,
    .signal 0 .drop, .signal 1 .reply, .signal 2 .reply]

/-- The winner loses its reply, the others are told `Conflict` and `Replayed`. -/
theorem admission_agrees_race :
    ∃ s, Machine.run step (empty 0) race = some s ∧
      s.calls.map Call.decided = [none, some .conflict, some (.replayed ⟨1⟩)] ∧
      ∀ r ∈ s.events, ∀ r' ∈ s.events, r.scope = r'.scope → r = r' := by
  have hrun : (Machine.run step (empty 0) race).map (fun s => s.calls.map Call.decided) =
      some [none, some .conflict, some (.replayed ⟨1⟩)] := by decide +kernel
  obtain ⟨s, hs, hobs⟩ := Option.map_eq_some_iff.mp hrun
  exact ⟨s, hs, hobs, (admission_agrees ⟨0, _, hs⟩).1⟩

end Database

end PulseStream
