import PulseStream.Store.Leases

/-!
# Completions and the life of a call

A `PROCESSED` row is final (`Reachable.processed_final`), an event is completed at most once
(`Reachable.complete_unique`), and so the calls that answered `true` are no more than the processed
rows (`Reachable.completedCalls_le`). For the workers, which only see their own calls: a call keeps
its request and, once returned, its answer (`Carries`).
-/

namespace PulseStream

namespace Call

/-- The caller has its answer. -/
def isReturned : Call → Bool
  | .admitEvent _ (.returned _) => true
  | .claim _ (.returned _) => true
  | .complete _ (.returned _) => true
  | _ => false

/-- The caller of a completion has been told `true`. -/
def isCompleted : Call → Bool
  | .complete _ (.returned true) => true
  | _ => false

theorem isCompleted_eq_true {call : Call} (h : call.isCompleted = true) :
    ∃ args, call = .complete args (.returned true) := by
  unfold isCompleted at h
  split at h
  · exact ⟨_, rfl⟩
  · cases h

end Call

theorem Progress.signal_returned {W R : Type} (sig : Signal) (r : R) :
    (returned r : Progress W R).signal sig = none := by
  cases sig <;> rfl

theorem Call.of_request_claim {call : Call} {args : ClaimArgs}
    (h : call.request = .claim args) : ∃ p, call = .claim args p := by
  cases call with
  | claim args' p =>
    obtain rfl := Request.claim.inj h
    exact ⟨p, rfl⟩
  | _ => cases h

theorem Call.of_request_complete {call : Call} {args : CompleteArgs}
    (h : call.request = .complete args) : ∃ p, call = .complete args p := by
  cases call with
  | complete args' p =>
    obtain rfl := Request.complete.inj h
    exact ⟨p, rfl⟩
  | _ => cases h

theorem Request.start_request (req : Request) (now : Timestamp) :
    (req.start now).request = req := by
  cases req with
  | claim args =>
    simp only [start]
    split_ifs <;> rfl
  | _ => rfl

/-! ## Later versions of a row -/

/-- How far an event has come. -/
def EventStatus.rank : EventStatus → ℕ
  | pending => 0
  | processing => 1
  | processed => 2

theorem EventStatus.rank_le (status : EventStatus) : status.rank ≤ processed.rank := by
  cases status <;> decide

theorem EventStatus.rank_le_processing {status : EventStatus} (h : status ≠ processed) :
    status.rank ≤ processing.rank := by
  cases status with
  | processed => exact absurd rfl h
  | _ => decide

/-- `r'` is the row `r`, or what has become of it. -/
structure Row.Later (r r' : Row) : Prop where
  content : r'.toContent = r.toContent
  status : r.status.rank ≤ r'.status.rank
  final : r.status = .processed → r' = r

theorem Row.Later.refl (r : Row) : r.Later r := ⟨rfl, le_rfl, fun _ => rfl⟩

theorem Row.Later.trans {r₁ r₂ r₃ : Row} (h : r₁.Later r₂) (h' : r₂.Later r₃) : r₁.Later r₃ := by
  refine ⟨h'.content.trans h.content, h.status.trans h'.status, fun hdone => ?_⟩
  obtain rfl := h.final hdone
  exact h'.final hdone

namespace Database

variable {s s' : Database} {a : Act}

/-! ## Calls -/

/-- Every call of `s` is a call of `s'`, the same one if it had returned. -/
def Carries (s s' : Database) : Prop :=
  ∀ (c : ℕ) (call : Call), s.calls[c]? = some call →
    ∃ call' : Call, s'.calls[c]? = some call' ∧ call'.request = call.request ∧
      (call.isReturned = true → call' = call)

theorem Carries.refl (s : Database) : s.Carries s := fun _ call hc => ⟨call, hc, rfl, fun _ => rfl⟩

theorem Carries.claim (h : s.Carries s') {c : ℕ} {args : ClaimArgs}
    {p : Progress ClaimStage (List Grant)} (hc : s.calls[c]? = some (.claim args p)) :
    ∃ p', s'.calls[c]? = some (.claim args p') := by
  obtain ⟨call', hc', hreq, -⟩ := h c _ hc
  obtain ⟨p', rfl⟩ := Call.of_request_claim hreq
  exact ⟨p', hc'⟩

theorem Carries.complete (h : s.Carries s') {c : ℕ} {args : CompleteArgs}
    {p : Progress CompleteStage Bool} (hc : s.calls[c]? = some (.complete args p)) :
    ∃ p', s'.calls[c]? = some (.complete args p') := by
  obtain ⟨call', hc', hreq, -⟩ := h c _ hc
  obtain ⟨p', rfl⟩ := Call.of_request_complete hreq
  exact ⟨p', hc'⟩

theorem Carries.returned (h : s.Carries s') {c : ℕ} {call : Call} (hc : s.calls[c]? = some call)
    (hret : call.isReturned = true) : s'.calls[c]? = some call := by
  obtain ⟨call', hc', -, hsame⟩ := h c call hc
  obtain rfl := hsame hret
  exact hc'

theorem Transition.not_returned {c : ℕ} {call call' : Call} {events : List Row} {ws : List Write}
    (h : Transition s c call call' events ws) : call.isReturned = false := by
  cases h with
  | move h =>
    cases h with
    | signal h =>
      rcases Call.signal_some h with ⟨_, p, _, rfl, _, hp⟩ | ⟨_, p, _, rfl, _, hp⟩ |
        ⟨_, p, _, rfl, _, hp⟩ <;>
      cases p with
      | returned r => exact absurd hp (by simp [Progress.signal_returned])
      | _ => rfl
    | _ => rfl
  | _ => rfl

theorem Steps.carries (h : Steps s a s') : s.Carries s' := by
  cases h with
  | tick now => exact .refl s
  | begin req =>
    intro c call hc
    have hlt := (List.getElem?_eq_some_iff.mp hc).1
    exact ⟨call, by rwa [List.getElem?_append_left hlt], rfl, fun _ => rfl⟩
  | @call _ i moved moved' events ws hi h =>
    intro c call hc
    by_cases hci : c = i
    · subst hci
      obtain rfl := Option.some.inj (hi.symm.trans hc)
      have hlt := (List.getElem?_eq_some_iff.mp hc).1
      refine ⟨moved', List.getElem?_set_self hlt, h.request, fun hret => ?_⟩
      exact absurd (h.not_returned.symm.trans hret) (by decide)
    · exact ⟨call, by rwa [List.getElem?_set_ne (Ne.symm hci)], rfl, fun _ => rfl⟩

theorem Steps.call_origin (h : Steps s a s') {c : ℕ} {call' : Call}
    (hc : s'.calls[c]? = some call') :
    (∃ call : Call, s.calls[c]? = some call ∧ call.request = call'.request) ∨
      (c = s.calls.length ∧ a = .begin call'.request) := by
  cases h with
  | tick now => exact .inl ⟨call', hc, rfl⟩
  | begin req =>
    rcases calls_append hc with ⟨rfl, rfl⟩ | ⟨-, hc⟩
    · exact .inr ⟨rfl, by rw [Request.start_request]⟩
    · exact .inl ⟨call', hc, rfl⟩
  | call hi h =>
    rcases calls_setCall hc with ⟨rfl, rfl⟩ | ⟨-, hc⟩
    · exact .inl ⟨_, hi, h.request.symm⟩
    · exact .inl ⟨call', hc, rfl⟩

theorem step_signal {c : ℕ} {sig : Signal} {call call' : Call} (hc : s.calls[c]? = some call)
    (hsig : call.signal sig = some call') (h : s.step (.signal c sig) = some s') :
    s'.calls[c]? = some call' := by
  simp only [step, hc, hsig, Option.bind_eq_bind, Option.bind_some, Option.some.injEq] at h
  rw [← h]
  exact List.getElem?_set_self (List.getElem?_eq_some_iff.mp hc).1

/-! ## Rows -/

theorem Steps.later (h : Steps s a s') (hs : s.Sound) {r : Row} (hr : r ∈ s.events) :
    ∃ r' ∈ s'.events, r.Later r' := by
  rcases h.changes hs hr with hkept | ⟨c, args, now, -, -, -, howned, hmem⟩ |
    ⟨c, args, now, rest, picked, -, -, hclaim, hmem⟩
  · exact ⟨r, hkept, .refl r⟩
  · refine ⟨_, hmem, rfl, EventStatus.rank_le _, fun hdone => ?_⟩
    exact absurd (howned.1.symm.trans hdone) (by decide)
  · exact ⟨_, hmem, rfl, EventStatus.rank_le_processing hclaim.not_processed,
      fun hdone => absurd hdone hclaim.not_processed⟩

theorem Reachable.later (h : s.Reachable) (hrun : Machine.Reaches step s s') {r : Row}
    (hr : r ∈ s.events) : ∃ r' ∈ s'.events, r.Later r' := by
  refine hrun.relates (P := Reachable)
    (R := fun t t' => ∀ r ∈ t.events, ∃ r' ∈ t'.events, r.Later r')
    (fun t r hr => ⟨r, hr, .refl r⟩) ?_ (fun t a t' ht ha => ht.next ha)
    (fun t a t' ht ha r hr => (step_spec ha).later ht.sound hr) h r hr
  intro t u v htu huv r hr
  obtain ⟨r₁, hr₁, hlater₁⟩ := htu r hr
  obtain ⟨r₂, hr₂, hlater₂⟩ := huv r₁ hr₁
  exact ⟨r₂, hr₂, hlater₁.trans hlater₂⟩

theorem Reachable.persists (h : s.Reachable) (hrun : Machine.Reaches step s s') {r : Row}
    (hr : r ∈ s.events) : ∃ r' ∈ s'.events, r'.toContent = r.toContent := by
  obtain ⟨r', hr', hlater⟩ := h.later hrun hr
  exact ⟨r', hr', hlater.content⟩

theorem Reachable.processed_final (h : s.Reachable) (hrun : Machine.Reaches step s s') {r : Row}
    (hr : r ∈ s.events) (hdone : r.status = .processed) : r ∈ s'.events := by
  obtain ⟨r', hr', hlater⟩ := h.later hrun hr
  exact hlater.final hdone ▸ hr'

/-! ## Completions -/

/-- What one step of a completion does: it leaves the table and answers nothing new but `false`, or
it completes the row it has locked, which its owner holds. -/
theorem Steps.complete_moves (h : Steps s a s') (hs : s.Sound) {c : ℕ} {args : CompleteArgs}
    {p : Progress CompleteStage Bool} (hc : s.calls[c]? = some (.complete args p))
    (hmoved : s'.calls[c]? ≠ s.calls[c]?) :
    (s'.events = s.events ∧ ∃ p', s'.calls[c]? = some (.complete args p') ∧
      (p'.answer = some true → p.answer = some true)) ∨
    (∃ r ∈ s.events, ∃ now, r.eventId = args.id ∧ r.OwnedBy args.owner ∧
      s'.events = Table.put (·.eventId) [r.completed now] s.events ∧
      s'.calls[c]? = some (.complete args (.committed true))) := by
  have hlt := (List.getElem?_eq_some_iff.mp hc).1
  cases h with
  | tick now => exact absurd rfl hmoved
  | begin req => exact absurd (List.getElem?_append_left hlt) hmoved
  | @call _ i call call' events ws hi h =>
    by_cases hic : i = c
    · subst hic
      obtain rfl := Option.some.inj (hc.symm.trans hi)
      have hnew : (s.calls.set i call')[i]? = some call' := List.getElem?_set_self hlt
      have hv := hs.calls i _ hc
      cases h with
      | move h =>
        refine .inl ⟨rfl, ?_⟩
        cases h with
        | signal h =>
          obtain ⟨p', hp', rfl⟩ := Option.map_eq_some_iff.mp h
          refine ⟨p', hnew, fun htrue => ?_⟩
          rcases Progress.signal_some hp' with ⟨e, rfl⟩ | rfl | ⟨b, rfl, rfl⟩
          · cases htrue
          · cases htrue
          · exact htrue
        | found | notFound | locked | lost | completeFailed | nothing =>
          exact ⟨_, hnew, fun htrue => by cases htrue⟩
      | @complete _ now r =>
        exact .inr ⟨r, hv.locked r (List.mem_singleton.mpr rfl), now, hv.coherent.1, hv.coherent.2,
          rfl, hnew⟩
    · exact absurd (List.getElem?_set_ne hic) hmoved

theorem Steps.write_call (h : Steps s a s') (ha : s.Accounted) {w : Write} (hw : w ∈ s'.log) :
    w.call < s.calls.length := by
  have hold : w ∈ s.log → w.call < s.calls.length := fun hlog => by
    obtain ⟨call, hcall, -⟩ := ha.authors w hlog
    exact (List.getElem?_eq_some_iff.mp hcall).1
  cases h with
  | tick now => exact hold hw
  | begin req => exact hold hw
  | call hc h =>
    rcases List.mem_append.mp hw with hlog | hnew
    · exact hold hlog
    · rw [h.call_eq w hnew]
      exact (List.getElem?_eq_some_iff.mp hc).1

theorem Reachable.complete_unique (h : s.Reachable) {w w' : Write} (hw : w ∈ s.log)
    (hw' : w' ∈ s.log) (hid : w.row.eventId = w'.row.eventId) (hc : w.isComplete = true)
    (hc' : w'.isComplete = true) : w = w' := by
  obtain ⟨r, hr, hrid⟩ := h.traced.known w hw
  exact (h.traced.trail r hr).complete_unique (mem_history.mpr ⟨hw, hrid.symm⟩)
    (mem_history.mpr ⟨hw', (hrid.trans hid).symm⟩) hc hc'

theorem Reachable.processed_iff (h : s.Reachable) {r : Row} (hr : r ∈ s.events) :
    r.status = .processed ↔ (s.history r.eventId).countP Write.isComplete = 1 := by
  rw [(h.traced.trail r hr).completions]
  split_ifs with hdone
  · exact iff_of_true hdone rfl
  · exact iff_of_false hdone (by decide)

/-- The calls whose callers were told `true`. -/
def completedCalls (s : Database) : Finset ℕ :=
  (Finset.range s.calls.length).filter fun c => (s.calls[c]?).any Call.isCompleted

theorem mem_completedCalls {c : ℕ} :
    c ∈ s.completedCalls ↔ ∃ args, s.calls[c]? = some (.complete args (.returned true)) := by
  unfold completedCalls
  rw [Finset.mem_filter, Finset.mem_range]
  constructor
  · rintro ⟨-, hany⟩
    cases hc : s.calls[c]? with
    | none => simp [hc] at hany
    | some call =>
      rw [hc] at hany
      obtain ⟨args, rfl⟩ := Call.isCompleted_eq_true hany
      exact ⟨args, rfl⟩
  · rintro ⟨args, hc⟩
    exact ⟨(List.getElem?_eq_some_iff.mp hc).1, by rw [hc]; rfl⟩

theorem Carries.completedCalls (h : s.Carries s') : s.completedCalls ⊆ s'.completedCalls := by
  intro c hc
  obtain ⟨args, hcall⟩ := mem_completedCalls.mp hc
  exact mem_completedCalls.mpr ⟨args, h.returned hcall rfl⟩

/-- A call that answered `true` wrote the only completion of a row, so no row answers for two. -/
theorem Reachable.completedCalls_le (h : s.Reachable) :
    s.completedCalls.card ≤ (s.events.filter fun r => r.status = .processed).length := by
  refine le_trans ?_ (List.toFinset_card_le _)
  refine Finset.card_le_card_of_forall_subsingleton
    (fun c r => ∃ w ∈ s.history r.eventId, w.isComplete = true ∧ w.call = c) ?_ ?_
  · intro c hc
    obtain ⟨args, hcall⟩ := mem_completedCalls.mp hc
    obtain ⟨w, hw, hcomplete, hwc⟩ := h.complete_written hcall rfl
    obtain ⟨hlog, hid⟩ := mem_history.mp hw
    obtain ⟨r, hr, hrid⟩ := h.traced.known w hlog
    have hw : w ∈ s.history r.eventId := mem_history.mpr ⟨hlog, hrid.symm⟩
    refine ⟨r, ?_, w, hw, hcomplete, hwc⟩
    simp [hr, h.processed_of_write hr hw hcomplete]
  · rintro r - c ⟨-, w, hw, hcomplete, rfl⟩ c' ⟨-, w', hw', hcomplete', rfl⟩
    obtain ⟨hlog, hid⟩ := mem_history.mp hw
    obtain ⟨hlog', hid'⟩ := mem_history.mp hw'
    rw [h.complete_unique hlog hlog' (hid.trans hid'.symm) hcomplete hcomplete']

end Database

end PulseStream
