import PulseStream.Store.History

/-!
# Decoding claimed rows

The second half of `Store::claim`: the rows are fetched, which reads every payload with
`serde_json`, and each becomes a `ClaimedEvent`. By then the UPDATE has committed.
-/

namespace PulseStream

/-- An event claimed by a worker. -/
structure ClaimedEvent (P : Type) where
  event : Event P
  attempt : ℕ
  reclaimed : Bool
  deriving DecidableEq

/-- `u32::try_from` of an `i32`. -/
def u32TryFrom (n : ℤ) : Except Unit ℕ := if 0 ≤ n then .ok n.toNat else .error ()

/-- The closure that `Store::claim` maps over the returned rows. -/
def Grant.decode (g : Grant) : Except StoreError (ClaimedEvent (Json Token)) := do
  let source ← (EventSource.parse g.row.source).mapError
    fun _ => .inconsistent "invalid stored source"
  let eventType ← (EventType.parse g.row.eventType).mapError
    fun _ => .inconsistent "invalid stored event_type"
  let attempt ← (u32TryFrom g.row.deliveryAttempts).mapError
    fun _ => .inconsistent "negative delivery_attempts"
  return {
    event := {
      id := g.row.eventId
      source := source
      eventType := eventType
      payload := jsonbOut g.row.payload
      -- a time before the epoch is replaced by the epoch
      acceptedAt := max 0 g.row.acceptedAt }
    attempt := attempt
    reclaimed := g.previous.asDbStr == EventStatus.processing.asDbStr }

theorem Grant.decode_eq_ok {g : Grant} {x : ClaimedEvent (Json Token)} (h : g.decode = .ok x) :
    x.event.id = g.row.eventId ∧ x.event.source.asStr = g.row.source ∧
      x.event.eventType.asStr = g.row.eventType ∧ x.event.payload = jsonbOut g.row.payload ∧
      (x.attempt : ℤ) = g.row.deliveryAttempts ∧
      (x.reclaimed = true ↔ g.previous = .processing) := by
  unfold decode at h
  cases hs : EventSource.parse g.row.source with
  | error e =>
    rw [hs] at h
    cases h
  | ok source =>
    cases ht : EventType.parse g.row.eventType with
    | error e =>
      rw [hs, ht] at h
      cases h
    | ok eventType =>
      cases hn : u32TryFrom g.row.deliveryAttempts with
      | error e =>
        rw [hs, ht, hn] at h
        cases h
      | ok attempt =>
        rw [hs, ht, hn] at h
        obtain rfl := Except.ok.inj h
        refine ⟨rfl, Label.parse_eq_ok.mp hs, Label.parse_eq_ok.mp ht, rfl, ?_, ?_⟩
        · unfold u32TryFrom at hn
          split_ifs at hn with hpos
          obtain rfl := Except.ok.inj hn
          exact Int.toNat_of_nonneg hpos
        · exact beq_iff_eq.trans EventStatus.asDbStr_injective.eq_iff

section Decode

variable {F : Type} [SerdeJson F]

/-- `fetch_all`: the columns of all rows are decoded, the payload by `serde_json`. -/
def fetchAll (grants : List Grant) : Except StoreError (List Grant) :=
  if ∀ g ∈ grants, (Value.ofText (jsonbOut g.row.payload) : Option (Value F)).isSome then .ok grants
  else .error (.ofSqlx .columnDecode)

/-- The rows of the claim as events, `rows.into_iter().map(…).collect()`. -/
def decodeClaims (grants : List Grant) : Except StoreError (List (ClaimedEvent (Json Token))) := do
  let rows ← fetchAll grants
  rows.mapM Grant.decode

theorem fetchAll_of_readable {grants : List Grant} (h : ∀ g ∈ grants, g.row.payload.Readable) :
    fetchAll grants = .ok grants := by
  unfold fetchAll
  rw [if_pos fun g hg => (ofText_jsonbOut_isSome g.row.payload).mpr (h g hg)]

theorem decodeClaims_of_readable {grants : List Grant} (h : ∀ g ∈ grants, g.row.payload.Readable) :
    decodeClaims grants = grants.mapM Grant.decode := by
  rw [decodeClaims, fetchAll_of_readable h]
  rfl

theorem decodeClaims_of_not_readable {grants : List Grant} {g : Grant} (hg : g ∈ grants)
    (h : ¬g.row.payload.Readable) : decodeClaims grants = .error (.ofSqlx .columnDecode) := by
  have hfetch : fetchAll grants = .error (.ofSqlx .columnDecode) := by
    unfold fetchAll
    rw [if_neg fun hall => h ((ofText_jsonbOut_isSome g.row.payload).mp (hall g hg))]
  rw [decodeClaims, hfetch]
  rfl

theorem mapM_decode_eq_ok {grants : List Grant} {xs : List (ClaimedEvent (Json Token))}
    (h : grants.mapM Grant.decode = .ok xs) :
    List.Forall₂ (fun g x => Grant.decode g = .ok x) grants xs := by
  induction grants generalizing xs with
  | nil =>
    cases h
    exact .nil
  | cons g grants ih =>
    rw [List.mapM_cons] at h
    cases hg : g.decode with
    | error e =>
      rw [hg] at h
      cases h
    | ok x =>
      cases hrest : grants.mapM Grant.decode with
      | error e =>
        rw [hg, hrest] at h
        cases h
      | ok rest =>
        rw [hg, hrest] at h
        cases h
        exact .cons hg (ih hrest)

theorem decodeClaims_eq_ok {grants : List Grant} {xs : List (ClaimedEvent (Json Token))}
    (h : decodeClaims grants = .ok xs) :
    (∀ g ∈ grants, g.row.payload.Readable) ∧
      List.Forall₂ (fun g x => Grant.decode g = .ok x) grants xs := by
  by_cases hread : ∀ g ∈ grants, g.row.payload.Readable
  · rw [decodeClaims_of_readable hread] at h
    exact ⟨hread, mapM_decode_eq_ok h⟩
  · simp only [not_forall] at hread
    obtain ⟨g, hg, hnot⟩ := hread
    rw [decodeClaims_of_not_readable hg hnot] at h
    cases h

/-- The rows a claim's answer carries. -/
def Call.grants : Call → List Grant
  | .claim _ p => p.answer.getD []
  | _ => []

/-- The claimed events of an answered claim. -/
def Call.claimedEvents (call : Call) : List (ClaimedEvent (Json Token)) :=
  match decodeClaims call.grants with
  | .ok xs => xs
  | .error _ => []

theorem Call.claimedEvents_spec (call : Call) :
    call.claimedEvents = [] ∨ (∀ g ∈ call.grants, g.row.payload.Readable) ∧
      List.Forall₂ (fun g x => Grant.decode g = .ok x) call.grants call.claimedEvents := by
  unfold claimedEvents
  cases h : decodeClaims call.grants with
  | error e => exact .inl rfl
  | ok xs => exact .inr (decodeClaims_eq_ok h)

theorem Call.granted {call : Call} {x : ClaimedEvent (Json Token)} (hx : x ∈ call.claimedEvents) :
    ∃ g ∈ call.grants, g.decode = .ok x ∧ g.row.payload.Readable := by
  rcases call.claimedEvents_spec with hnil | ⟨hread, hall⟩
  · rw [hnil] at hx
    cases hx
  · obtain ⟨i, hi, rfl⟩ := List.getElem_of_mem hx
    have hi' : i < call.grants.length := hall.length_eq ▸ hi
    exact ⟨call.grants[i], List.getElem_mem hi', hall.get hi' hi, hread _ (List.getElem_mem hi')⟩

end Decode

namespace Database

variable {s : Database}

theorem Reachable.grant_logged (h : s.Reachable) {i : ℕ} {call : Call}
    (hi : s.calls[i]? = some call) {g : Grant} (hg : g ∈ call.grants) :
    ∃ owner now lease, (⟨i, .claim owner now lease g.previous, g.row⟩ : Write) ∈ s.log := by
  have ha := h.accounted.accounts i call hi
  cases call with
  | claim args p =>
    cases p with
    | committed grants | returned grants =>
      obtain ⟨-, now, hw⟩ := ha
      refine ⟨args.owner, now, args.lease, ((mem_written (c := i)).mp ?_).1⟩
      rw [hw]
      exact List.mem_map_of_mem hg
    | _ => cases hg
  | _ => cases hg

theorem Reachable.grants_nodup (h : s.Reachable) {i : ℕ} {call : Call}
    (hi : s.calls[i]? = some call) : (call.grants.map (·.row.eventId)).Nodup := by
  have ha := h.accounted.accounts i call hi
  cases call with
  | claim args p =>
    cases p with
    | committed grants | returned grants => exact ha.1
    | _ => exact List.nodup_nil
  | _ => exact List.nodup_nil

/-- Neither the locks nor the answer of a claim exceed its `LIMIT`. -/
def WithinLimit (call : Call) : Prop :=
  ∀ args, call.request = .claim args →
    call.lockedRows.length ≤ args.sqlLimit ∧ call.grants.length ≤ args.sqlLimit

theorem Transition.withinLimit {s : Database} {c : ℕ} {call call' : Call} {events : List Row}
    {ws : List Write} (h : Transition s c call call' events ws) (hlimit : WithinLimit call) :
    WithinLimit call' := by
  intro args hreq
  have hold := hlimit args (h.request.symm.trans hreq)
  cases h with
  | move h =>
    cases h with
    | pick hroom hr hclaim hfree =>
      obtain rfl := Request.claim.inj hreq
      have hle := hold.1
      simp only [Call.lockedRows] at hle
      refine ⟨?_, Nat.zero_le _⟩
      show (_ ++ [_]).length ≤ _
      rw [List.length_append, List.length_singleton]
      omega
    | signal h =>
      rcases Call.signal_some h with ⟨_, _, _, rfl, rfl, _⟩ | ⟨_, p, p', rfl, rfl, hp⟩ |
        ⟨_, _, _, rfl, rfl, _⟩
      · cases hreq
      · rcases Progress.signal_some hp with ⟨_, rfl⟩ | rfl | ⟨grants, rfl, rfl⟩
        · exact ⟨Nat.zero_le _, Nat.zero_le _⟩
        · exact ⟨Nat.zero_le _, Nat.zero_le _⟩
        · exact hold
      · cases hreq
    | snapshot | claimFailed => exact ⟨Nat.zero_le _, Nat.zero_le _⟩
    | skip h => exact hold
    | _ => cases hreq
  | @claim _ _ rest picked hdone hroom =>
    obtain rfl := Request.claim.inj hreq
    refine ⟨Nat.zero_le _, ?_⟩
    show (picked.map _).length ≤ _
    rw [List.length_map]
    exact hold.1
  | _ => cases hreq

theorem Reachable.grants_length (h : s.Reachable) {i : ℕ} {args : ClaimArgs}
    {p : Progress ClaimStage (List Grant)} (hi : s.calls[i]? = some (.claim args p)) :
    (p.answer.getD []).length ≤ args.limit := by
  have hlimit : WithinLimit (.claim args p) := by
    refine h.call_invariant ?_ (fun _ _ _ _ _ _ _ _ hP htrans => htrans.withinLimit hP) hi
    intro now req args hreq
    cases req with
    | claim args' =>
      simp only [Request.start]
      split_ifs <;> exact ⟨Nat.zero_le _, Nat.zero_le _⟩
    | _ => cases hreq
  exact (hlimit args rfl).2.trans (Nat.min_le_left _ _)

end Database

end PulseStream
