import PulseStream.Lib.Machine
import PulseStream.Store.Calls

/-!
# What a step of the store can do

`step_spec`: a step sets the clock, begins a call, or takes one call through one `Transition`. A
transition either leaves the table as it is (`Move`) or commits one of the three writes. Every
invariant of the store is a case analysis on these.
-/

namespace PulseStream

open Machine

namespace Row

theorem update_eq_ok {old new row : Row} :
    old.update new = .ok row ↔ contentDiffers old new = false ∧ new.Checks ∧ row = new := by
  unfold update
  split_ifs with hd hc
  · simp [hd]
  · simp only [Except.ok.injEq, Bool.not_eq_true] at hd ⊢
    exact ⟨fun h => ⟨hd, hc, h.symm⟩, fun h => h.2.2.symm⟩
  · simp [hc]

theorem claim_eq_ok {owner : WorkerId} {now : Timestamp} {lease : ℕ} {r row : Row}
    (h : r.claim owner now lease = .ok row) :
    r.deliveryAttempts < integerMax ∧ row = r.claimed owner now lease := by
  unfold claim at h
  split_ifs at h with hmax
  exact ⟨by omega, (update_eq_ok.mp h).2.2⟩

@[simp] theorem claimed_content (owner : WorkerId) (now : Timestamp) (lease : ℕ) (r : Row) :
    (r.claimed owner now lease).toContent = r.toContent := rfl

theorem complete_eq_ok {now : Timestamp} {r row : Row} (h : r.complete now = .ok row) :
    row = r.completed now := (update_eq_ok.mp h).2.2

end Row

theorem AdmitArgs.checkedRow_eq_ok {args : AdmitArgs} {now : Timestamp} {row : Row} :
    args.checkedRow now = .ok row ↔
      (hasNul args.source = false ∧ hasNul args.eventType = false ∧
        hasNul args.idempotencyKey = false) ∧
      row.Checks ∧ ∃ payload, jsonbIn args.payload = some payload ∧ row = args.row payload now := by
  unfold checkedRow
  split_ifs with hnul
  · simp only [Bool.or_eq_true] at hnul
    simp only [false_iff, not_and]
    rintro ⟨h₁, h₂, h₃⟩
    simp [h₁, h₂, h₃] at hnul
  · simp only [Bool.or_eq_true, not_or, Bool.not_eq_true] at hnul
    cases hp : jsonbIn args.payload with
    | none => simp
    | some payload =>
      simp only [Option.some.injEq, exists_eq_left']
      split_ifs with hc
      · simp only [Except.ok.injEq]
        exact ⟨fun h => ⟨⟨hnul.1.1, hnul.1.2, hnul.2⟩, h ▸ hc, h.symm⟩, fun h => h.2.2.symm⟩
      · simp only [false_iff, not_and]
        rintro _ h rfl
        exact hc h

theorem AdmitArgs.checkedRow_key {args : AdmitArgs} {now : Timestamp} {row : Row}
    (h : args.checkedRow now = .ok row) : row.scope = args.scope ∧ row.eventId = args.eventId := by
  obtain ⟨-, -, payload, -, rfl⟩ := checkedRow_eq_ok.mp h
  exact ⟨rfl, rfl⟩

/-- The grant and the write of a row that a claim locked. -/
def ClaimArgs.grant (args : ClaimArgs) (now : Timestamp) (r : Row) : Grant :=
  ⟨r.claimed args.owner now args.lease, r.status⟩

def ClaimArgs.write (args : ClaimArgs) (c : ℕ) (now : Timestamp) (r : Row) : Write :=
  ⟨c, .claim args.owner now args.lease r.status, r.claimed args.owner now args.lease⟩

theorem claimRows_eq_ok {args : ClaimArgs} {now : Timestamp} {picked : List Row}
    {grants : List Grant} (h : Database.claimRows args now picked = .ok grants) :
    (∀ r ∈ picked, r.deliveryAttempts < integerMax) ∧ grants = picked.map (args.grant now) := by
  unfold Database.claimRows at h
  induction picked generalizing grants with
  | nil =>
    cases h
    simp
  | cons r picked ih =>
    rw [List.mapM_cons] at h
    cases hr : r.claim args.owner now args.lease with
    | error e =>
      rw [hr] at h
      cases h
    | ok row =>
      obtain ⟨hmax, rfl⟩ := Row.claim_eq_ok hr
      rw [hr] at h
      cases hrest : picked.mapM fun r => do
          let row ← r.claim args.owner now args.lease
          return (⟨row, r.status⟩ : Grant) with
      | error e =>
        rw [hrest] at h
        cases h
      | ok rest =>
        rw [hrest] at h
        cases h
        obtain ⟨hroom, rfl⟩ := ih hrest
        exact ⟨by simpa using ⟨hmax, hroom⟩, rfl⟩

/-- The call an action moves. -/
def Act.moves : Act → Option ℕ
  | .advance c => some c
  | .signal c _ => some c
  | _ => none

namespace Database

variable {s s' : Database}

/-! ## Reading the state -/

theorem mem_uncommitted {r : Row} :
    r ∈ s.uncommitted ↔
      ∃ (c : ℕ) (call : Call), s.calls[c]? = some call ∧ call.insertedRow = some r := by
  unfold uncommitted
  rw [List.mem_filterMap]
  simp only [List.mem_iff_getElem?]
  exact ⟨fun ⟨call, ⟨c, hc⟩, h⟩ => ⟨c, call, hc, h⟩, fun ⟨c, call, hc, h⟩ => ⟨call, ⟨c, hc⟩, h⟩⟩

theorem not_locked {id : EventId} (h : s.lockedBySome id = false) {c : ℕ} {call : Call}
    (hc : s.calls[c]? = some call) : ∀ r ∈ call.lockedRows, r.eventId ≠ id := by
  unfold lockedBySome at h
  intro r hr hid
  have hcall := List.any_eq_false.mp h call (List.mem_of_getElem? hc)
  refine hcall (List.any_eq_true.mpr ⟨r, hr, ?_⟩)
  simpa using hid

theorem rowOf_some {id : EventId} {r : Row} (h : s.rowOf id = some r) :
    r ∈ s.events ∧ r.eventId = id := by
  have hk := Table.lookup_key h
  exact ⟨Table.lookup_mem h, hk⟩

theorem rowOf_filter {id : EventId} {p : Row → Bool} {r : Row}
    (h : (s.rowOf id).filter p = some r) : r ∈ s.events ∧ r.eventId = id ∧ p r = true := by
  obtain ⟨hr, hp⟩ := Option.filter_eq_some_iff.mp h
  exact ⟨(rowOf_some hr).1, (rowOf_some hr).2, hp⟩

theorem rowOfScope_some {scope : String × String} {r : Row} (h : s.rowOfScope scope = some r) :
    r ∈ s.events ∧ r.scope = scope := by
  have hk := Table.lookup_key h
  exact ⟨Table.lookup_mem h, hk⟩

theorem calls_setCall {c i : ℕ} {call call' : Call}
    (h : (s.calls.set c call)[i]? = some call') :
    (i = c ∧ call' = call) ∨ (i ≠ c ∧ s.calls[i]? = some call') := by
  rw [List.getElem?_set] at h
  split_ifs at h with hic hlt
  · exact .inl ⟨hic.symm, (Option.some.inj h).symm⟩
  · exact .inr ⟨fun hi => hic hi.symm, h⟩

theorem calls_append {i : ℕ} {call call' : Call} (h : (s.calls ++ [call])[i]? = some call') :
    (i = s.calls.length ∧ call' = call) ∨ (i < s.calls.length ∧ s.calls[i]? = some call') := by
  rw [List.getElem?_append] at h
  split_ifs at h with hi
  · exact .inr ⟨hi, h⟩
  · rw [List.getElem?_singleton] at h
    split_ifs at h with h0
    exact .inl ⟨by omega, (Option.some.inj h).symm⟩

/-! ## Transitions -/

/-- A transition of one call that leaves the table as it is. -/
inductive Move (s : Database) : Call → Call → Prop
  | refused {args now e} (h : args.checkedRow now = .error e) :
      Move s (.admitEvent args (.running (.begun now))) (.admitEvent args (.failed (.ofSqlx e)))
  | inserted {args now row} (h : args.checkedRow now = .ok row)
      (hopen : ∀ r ∈ s.uncommitted, r.scope ≠ row.scope ∧ r.eventId ≠ row.eventId)
      (hrows : ∀ r ∈ s.events, r.scope ≠ row.scope ∧ r.eventId ≠ row.eventId) :
      Move s (.admitEvent args (.running (.begun now)))
        (.admitEvent args (.running (.inserted row)))
  | taken {args now r} (hr : r ∈ s.events) (hscope : r.scope = args.scope) :
      Move s (.admitEvent args (.running (.begun now))) (.admitEvent args (.running .taken))
  | duplicateId {args now r} (hr : r ∈ s.events) (hid : r.eventId = args.eventId) :
      Move s (.admitEvent args (.running (.begun now)))
        (.admitEvent args (.failed (.ofSqlx .uniqueViolation)))
  | replayed {args r} (hr : r ∈ s.events) (hscope : r.scope = args.scope)
      (hf : r.requestFingerprint = args.requestFingerprint) :
      Move s (.admitEvent args (.running .taken))
        (.admitEvent args (.running (.resolved (.replayed r.eventId))))
  | conflict {args r} (hr : r ∈ s.events) (hscope : r.scope = args.scope)
      (hf : r.requestFingerprint ≠ args.requestFingerprint) :
      Move s (.admitEvent args (.running .taken))
        (.admitEvent args (.running (.resolved .conflict)))
  | missing {args} (hrows : ∀ r ∈ s.events, r.scope ≠ args.scope) :
      Move s (.admitEvent args (.running .taken))
        (.admitEvent args (.failed (.inconsistent "conflicting row not found")))
  | settled {args outcome} :
      Move s (.admitEvent args (.running (.resolved outcome)))
        (.admitEvent args (.committed outcome))
  | snapshot {args now} :
      Move s (.claim args (.running (.begun now)))
        (.claim args (.running (.scanning now (s.candidates now) [])))
  | skip {args now id rest picked} (h : s.pick now id = none) :
      Move s (.claim args (.running (.scanning now (id :: rest) picked)))
        (.claim args (.running (.scanning now rest picked)))
  | pick {args now rest picked r} (hroom : picked.length ≠ args.sqlLimit) (hr : r ∈ s.events)
      (hclaim : r.Claimable now) (hfree : s.lockedBySome r.eventId = false) :
      Move s (.claim args (.running (.scanning now (r.eventId :: rest) picked)))
        (.claim args (.running (.scanning now rest (picked ++ [r]))))
  | claimFailed {args now rest picked e} (h : claimRows args now picked = .error e) :
      Move s (.claim args (.running (.scanning now rest picked)))
        (.claim args (.failed (.ofSqlx e)))
  | found {args now r} (hr : r ∈ s.events) (hid : r.eventId = args.id)
      (howned : r.OwnedBy args.owner) :
      Move s (.complete args (.running (.begun now))) (.complete args (.running (.found now)))
  | notFound {args now} :
      Move s (.complete args (.running (.begun now))) (.complete args (.running .unmatched))
  | locked {args now r} (hr : r ∈ s.events) (hid : r.eventId = args.id)
      (howned : r.OwnedBy args.owner) (hfree : s.lockedBySome args.id = false) :
      Move s (.complete args (.running (.found now))) (.complete args (.running (.locked now r)))
  | lost {args now} :
      Move s (.complete args (.running (.found now))) (.complete args (.running .unmatched))
  | completeFailed {args now r e} (h : r.complete now = .error e) :
      Move s (.complete args (.running (.locked now r))) (.complete args (.failed (.ofSqlx e)))
  | nothing {args} :
      Move s (.complete args (.running .unmatched)) (.complete args (.committed false))
  | signal {call call' sig} (h : call.signal sig = some call') : Move s call call'

/-- A transition of call `c`, with the table after it and the row versions it commits. -/
inductive Transition (s : Database) (c : ℕ) : Call → Call → List Row → List Write → Prop
  | move {call call'} (h : Move s call call') : Transition s c call call' s.events []
  | insert {args row} :
      Transition s c (.admitEvent args (.running (.inserted row)))
        (.admitEvent args (.committed (.created row.eventId))) (s.events ++ [row])
        [⟨c, .insert, row⟩]
  | claim {args now rest picked} (hdone : rest = [] ∨ picked.length = args.sqlLimit)
      (hroom : ∀ r ∈ picked, r.deliveryAttempts < integerMax) :
      Transition s c (.claim args (.running (.scanning now rest picked)))
        (.claim args (.committed (picked.map (args.grant now))))
        (Table.put (·.eventId) (picked.map (·.claimed args.owner now args.lease)) s.events)
        (picked.map (args.write c now))
  | complete {args now r} :
      Transition s c (.complete args (.running (.locked now r))) (.complete args (.committed true))
        (Table.put (·.eventId) [r.completed now] s.events)
        [⟨c, .complete args.owner now, r.completed now⟩]

/-- Everything a step can do. -/
inductive Steps (s : Database) : Act → Database → Prop
  | tick (now : Timestamp) : Steps s (.tick now) { s with clock := now }
  | begin (req : Request) : Steps s (.begin req) { s with calls := s.calls ++ [req.start s.clock] }
  | call {a : Act} {c : ℕ} {call call' : Call} {events : List Row} {ws : List Write}
      (hc : s.calls[c]? = some call) (h : Transition s c call call' events ws)
      (ha : a.moves = some c := by rfl) :
      Steps s a { s with events := events, calls := s.calls.set c call', log := s.log ++ ws }

theorem Steps.move {a : Act} {c : ℕ} {call call' : Call} (hc : s.calls[c]? = some call)
    (h : Move s call call') (ha : a.moves = some c := by rfl) : Steps s a (s.setCall c call') := by
  have hs := Steps.call hc (.move h) ha
  rwa [List.append_nil] at hs

/-! ## The inversion of `step` -/

theorem insertEvent_move {args : AdmitArgs} {now : Timestamp} {row : Row}
    {p : Progress AdmitStage AdmitOutcome} (hrow : args.checkedRow now = .ok row)
    (h : s.insertEvent row = some p) :
    Move s (.admitEvent args (.running (.begun now))) (.admitEvent args p) := by
  obtain ⟨hscope, hid⟩ := args.checkedRow_key hrow
  unfold insertEvent at h
  split_ifs at h with h₁ h₂ h₃ h₄
  · obtain rfl := Option.some.inj h
    obtain ⟨r, hr⟩ := Option.isSome_iff_exists.mp h₂
    exact .taken (rowOfScope_some hr).1 ((rowOfScope_some hr).2.trans hscope)
  · obtain rfl := Option.some.inj h
    obtain ⟨r, hr⟩ := Option.isSome_iff_exists.mp h₄
    exact .duplicateId (rowOf_some hr).1 ((rowOf_some hr).2.trans hid)
  · obtain rfl := Option.some.inj h
    refine .inserted hrow ?_ ?_
    · intro r hr
      simp only [List.any_eq_true, beq_iff_eq, not_exists, not_and] at h₁ h₃
      exact ⟨h₁ r hr, h₃ r hr⟩
    · intro r hr
      have hs := Table.lookup_eq_none.mp (Option.not_isSome_iff_eq_none.mp h₂) r hr
      have hi := Table.lookup_eq_none.mp (Option.not_isSome_iff_eq_none.mp h₄) r hr
      exact ⟨hs, hi⟩

theorem resolve_move (s : Database) (args : AdmitArgs) :
    Move s (.admitEvent args (.running .taken)) (.admitEvent args (s.resolve args)) := by
  unfold resolve
  split
  · rename_i r hr
    obtain ⟨hmem, hscope⟩ := rowOfScope_some hr
    split_ifs with hf
    · exact .replayed hmem hscope hf
    · exact .conflict hmem hscope hf
  · rename_i hnone
    exact .missing (Table.lookup_eq_none.mp hnone)

theorem advanceAdmit_spec {c : ℕ} {args : AdmitArgs} {stage : AdmitStage}
    (hc : s.calls[c]? = some (.admitEvent args (.running stage)))
    (h : s.advanceAdmit c args stage = some s') : Steps s (.advance c) s' := by
  cases stage with
  | begun now =>
    unfold advanceAdmit at h
    cases hrow : args.checkedRow now with
    | error e =>
      simp only [hrow, Option.some.injEq] at h
      exact h ▸ .move hc (.refused hrow)
    | ok row =>
      simp only [hrow, Option.bind_eq_bind, Option.bind_eq_some_iff, Option.some.injEq] at h
      obtain ⟨p, hp, rfl⟩ := h
      exact .move hc (insertEvent_move hrow hp)
  | inserted row =>
    obtain rfl := Option.some.inj h
    exact .call hc .insert
  | taken =>
    obtain rfl := Option.some.inj h
    exact .move hc (resolve_move s args)
  | resolved outcome =>
    obtain rfl := Option.some.inj h
    exact .move hc .settled

theorem commitClaim_spec {c : ℕ} {args : ClaimArgs} {now : Timestamp} {rest : List EventId}
    {picked : List Row}
    (hc : s.calls[c]? = some (.claim args (.running (.scanning now rest picked))))
    (hdone : rest = [] ∨ picked.length = args.sqlLimit) :
    Steps s (.advance c) (s.commitClaim c args now picked) := by
  unfold commitClaim
  cases hg : claimRows args now picked with
  | error e => exact .move hc (.claimFailed hg)
  | ok grants =>
    obtain ⟨hroom, rfl⟩ := claimRows_eq_ok hg
    simp only [List.map_map]
    exact .call hc (.claim hdone hroom)

theorem advanceClaim_spec {c : ℕ} {args : ClaimArgs} {stage : ClaimStage}
    (hc : s.calls[c]? = some (.claim args (.running stage)))
    (h : s.advanceClaim c args stage = some s') : Steps s (.advance c) s' := by
  cases stage with
  | begun now =>
    obtain rfl := Option.some.inj h
    exact .move hc .snapshot
  | scanning now rest picked =>
    cases rest with
    | nil =>
      obtain rfl := Option.some.inj h
      exact commitClaim_spec hc (.inl rfl)
    | cons id rest =>
      simp only [advanceClaim] at h
      split_ifs at h with hlimit
      · obtain rfl := Option.some.inj h
        exact commitClaim_spec hc (.inr hlimit)
      · obtain rfl := Option.some.inj h
        cases hp : s.pick now id with
        | none =>
          rw [Option.toList_none, List.append_nil]
          exact .move hc (.skip hp)
        | some r =>
          unfold pick at hp
          split_ifs at hp with hlock
          obtain ⟨hr, rfl, hclaim⟩ := rowOf_filter hp
          exact .move hc (.pick hlimit hr (by simpa using hclaim) (by simpa using hlock))

theorem advanceComplete_spec {c : ℕ} {args : CompleteArgs} {stage : CompleteStage}
    (hc : s.calls[c]? = some (.complete args (.running stage)))
    (h : s.advanceComplete c args stage = some s') : Steps s (.advance c) s' := by
  cases stage with
  | begun now =>
    simp only [advanceComplete] at h
    split at h
    · rename_i r hf
      obtain rfl := Option.some.inj h
      obtain ⟨hr, hid, howned⟩ := rowOf_filter hf
      exact .move hc (.found hr hid (by simpa using howned))
    · obtain rfl := Option.some.inj h
      exact .move hc .notFound
  | found now =>
    simp only [advanceComplete] at h
    split_ifs at h with hlock
    split at h
    · rename_i r hf
      obtain rfl := Option.some.inj h
      obtain ⟨hr, hid, howned⟩ := rowOf_filter hf
      exact .move hc (.locked hr hid (by simpa using howned) (by simpa using hlock))
    · obtain rfl := Option.some.inj h
      exact .move hc .lost
  | locked now r =>
    simp only [advanceComplete] at h
    cases hr : r.complete now with
    | error e =>
      simp only [hr, Option.some.injEq] at h
      exact h ▸ .move hc (.completeFailed hr)
    | ok row =>
      simp only [hr, Option.some.injEq] at h
      obtain rfl := Row.complete_eq_ok hr
      exact h ▸ .call hc .complete
  | unmatched =>
    obtain rfl := Option.some.inj h
    exact .move hc .nothing

theorem step_spec {a : Act} (h : s.step a = some s') : Steps s a s' := by
  cases a with
  | tick now =>
    obtain rfl := Option.some.inj h
    exact .tick now
  | begin req =>
    obtain rfl := Option.some.inj h
    exact .begin req
  | advance c =>
    simp only [step, advance] at h
    split at h
    · rename_i hc
      exact advanceAdmit_spec hc h
    · rename_i hc
      exact advanceClaim_spec hc h
    · rename_i hc
      exact advanceComplete_spec hc h
    · cases h
  | signal c sig =>
    simp only [step, Option.bind_eq_bind, Option.bind_eq_some_iff, Option.some.injEq] at h
    obtain ⟨call, hc, call', hsig, rfl⟩ := h
    exact .move hc (.signal hsig)

/-- `s` is reached from the empty table by some interleaving of calls. -/
def Reachable (s : Database) : Prop := ∃ clock, Reaches step (empty clock) s

/-- The invariant rule of the store: `P` holds of the empty table and every step keeps it. -/
theorem Reachable.invariant {P : Database → Prop} (h : Reachable s)
    (hempty : ∀ clock, P (empty clock))
    (hstep : ∀ t a t', Reachable t → P t → Steps t a t' → P t') : P s := by
  obtain ⟨clock, hs⟩ := h
  exact hs.invariant (hempty clock) fun t a t' ht hP ha =>
    hstep t a t' ⟨clock, ht⟩ hP (step_spec ha)

/-- The invariant rule of calls: `P` holds of every call as it starts and every transition keeps
it. -/
theorem Reachable.call_invariant {P : Call → Prop} (h : Reachable s)
    (hstart : ∀ now req, P (Request.start now req))
    (hstep : ∀ t c call call' events ws, Reachable t → t.calls[c]? = some call → P call →
      Transition t c call call' events ws → P call')
    {c : ℕ} {call : Call} (hc : s.calls[c]? = some call) : P call := by
  revert c call
  refine h.invariant (P := fun t => ∀ {c : ℕ} {call : Call}, t.calls[c]? = some call → P call) ?_ ?_
  · intro clock c call hc
    simp [empty] at hc
  · intro t a t' ht hP hsteps c call hc
    cases hsteps with
    | tick now => exact hP hc
    | begin req =>
      rcases calls_append hc with ⟨-, rfl⟩ | ⟨-, hc⟩
      · exact hstart _ _
      · exact hP hc
    | call hi h =>
      rcases calls_setCall hc with ⟨rfl, rfl⟩ | ⟨-, hc⟩
      · exact hstep _ _ _ _ _ _ ht hi (hP hi) h
      · exact hP hc

end Database

end PulseStream
