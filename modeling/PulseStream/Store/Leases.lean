import PulseStream.Store.Admission
import PulseStream.Store.Delivery

/-!
# Leases, attempts and the table invariant

What the trails say about the whole store: `table_invariant` (every row is consistent, unique and
keeps the content it was inserted with, and no lifecycle write is refused), `attempts_exact` (the
claims of an event are numbered without gaps or duplicates) and `leases_exclusive` (ownership moves
only when a lease has ended).
-/

namespace PulseStream

namespace Row

variable {r : Row} {owner : WorkerId} {now : Timestamp} {lease : ℕ}

theorem WellFormed.claim_ok (h : r.WellFormed) (hclaim : r.Claimable now)
    (hroom : r.deliveryAttempts < integerMax) :
    r.claim owner now lease = .ok (r.claimed owner now lease) := by
  unfold claim
  rw [if_neg (by omega)]
  exact update_eq_ok.mpr ⟨contentDiffers_eq_false rfl, h.claimed_checks hclaim, rfl⟩

theorem WellFormed.complete_ok (h : r.WellFormed) (howned : r.OwnedBy owner) :
    r.complete now = .ok (r.completed now) :=
  update_eq_ok.mpr ⟨contentDiffers_eq_false rfl, h.completed_checks howned, rfl⟩

end Row

theorem claimRows_ok {args : ClaimArgs} {now : Timestamp} {picked : List Row}
    (h : ∀ r ∈ picked,
      r.claim args.owner now args.lease = .ok (r.claimed args.owner now args.lease)) :
    Database.claimRows args now picked = .ok (picked.map (args.grant now)) := by
  unfold Database.claimRows
  induction picked with
  | nil => rfl
  | cons r picked ih =>
    have hrest := ih fun r' hr' => h r' (List.mem_cons_of_mem _ hr')
    rw [List.mapM_cons, h r List.mem_cons_self, hrest]
    rfl

namespace Database

variable {s s' : Database}

theorem Reachable.wellFormed (h : s.Reachable) {r : Row} (hr : r ∈ s.events) : r.WellFormed :=
  (h.traced.trail r hr).wellFormed

theorem Reachable.next {a : Act} (h : s.Reachable) (ha : s.step a = some s') : s'.Reachable := by
  obtain ⟨clock, hs⟩ := h
  exact ⟨clock, hs.tail ha⟩

/-! ## The table invariant -/

theorem Reachable.claimRows_ok (h : s.Reachable) {c : ℕ} {args : ClaimArgs} {now : Timestamp}
    {rest : List EventId} {picked : List Row}
    (hc : s.calls[c]? = some (.claim args (.running (.scanning now rest picked))))
    (hroom : ∀ r ∈ s.events, r.deliveryAttempts < integerMax) :
    claimRows args now picked = .ok (picked.map (args.grant now)) := by
  have hv := h.sound.calls c _ hc
  refine PulseStream.claimRows_ok fun r hr => ?_
  have hmem := hv.locked r hr
  exact (h.wellFormed hmem).claim_ok (hv.coherent.1 r hr) (hroom r hmem)

theorem Reachable.complete_ok (h : s.Reachable) {c : ℕ} {args : CompleteArgs} {now : Timestamp}
    {r : Row} (hc : s.calls[c]? = some (.complete args (.running (.locked now r)))) :
    r.complete now = .ok (r.completed now) := by
  have hv := h.sound.calls c _ hc
  exact (h.wellFormed (hv.locked r (List.mem_singleton.mpr rfl))).complete_ok hv.coherent.2

/-- Every row has its INSERT in the log: one write, of an admission that passed every check, with
the content the row still has. -/
theorem Reachable.inserted_by (h : s.Reachable) {r : Row} (hr : r ∈ s.events) :
    ∃ (w : Write) (args : AdmitArgs) (p : Progress AdmitStage AdmitOutcome) (now : Timestamp),
      w ∈ s.log ∧ w.op = .insert ∧ s.calls[w.call]? = some (.admitEvent args p) ∧
        args.checkedRow now = .ok w.row ∧ r.toContent = w.row.toContent ∧
        ∀ w' ∈ s.log, w'.op = .insert → w'.row.eventId = r.eventId → w' = w := by
  have ht := h.traced.trail r hr
  obtain ⟨c, args₀, now₀, row, rest, -, hhist, -⟩ := ht.created
  have hmem : (⟨c, .insert, row⟩ : Write) ∈ s.history r.eventId := hhist ▸ List.mem_cons_self
  obtain ⟨hlog, hid⟩ := mem_history.mp hmem
  obtain ⟨call, hcall, hauth⟩ := h.accounted.authors _ hlog
  cases call with
  | admitEvent args p =>
    obtain ⟨-, now, hrow⟩ := hauth
    refine ⟨_, args, p, now, hlog, rfl, hcall, hrow, (ht.content _ hmem).symm,
      fun w' hw' hop hid' => ?_⟩
    exact h.insert_unique hw' hlog hop rfl (hid'.trans hid.symm)
  | claim args p =>
    obtain ⟨_, _, hop⟩ := hauth
    cases hop
  | complete args p =>
    obtain ⟨⟨_, hop⟩, -⟩ := hauth
    cases hop

/-- **Table invariant.** Every row is consistent, a pending one has no attempts, ids and keys are
unique, and the content is that of the one INSERT. While no row is at the end of the `INTEGER`
range, the UPDATEs of claims and completions pass the trigger and every CHECK. -/
theorem table_invariant (h : s.Reachable) :
    (∀ r ∈ s.events, r.LifecycleConsistent ∧ (r.status = .pending → r.deliveryAttempts = 0)) ∧
    (s.events.map (·.scope)).Nodup ∧ (s.events.map (·.eventId)).Nodup ∧
    (∀ r ∈ s.events,
      ∃ (w : Write) (args : AdmitArgs) (p : Progress AdmitStage AdmitOutcome) (now : Timestamp),
        w ∈ s.log ∧ w.op = .insert ∧ s.calls[w.call]? = some (.admitEvent args p) ∧
          args.checkedRow now = .ok w.row ∧ r.toContent = w.row.toContent ∧
          ∀ w' ∈ s.log, w'.op = .insert → w'.row.eventId = r.eventId → w' = w) ∧
    ((∀ r ∈ s.events, r.deliveryAttempts < integerMax) →
      (∀ (c : ℕ) (args : ClaimArgs) (now : Timestamp) (rest : List EventId) (picked : List Row),
        s.calls[c]? = some (.claim args (.running (.scanning now rest picked))) →
        claimRows args now picked = .ok (picked.map (args.grant now))) ∧
      (∀ (c : ℕ) (args : CompleteArgs) (now : Timestamp) (r : Row),
        s.calls[c]? = some (.complete args (.running (.locked now r))) →
        r.complete now = .ok (r.completed now))) := by
  refine ⟨fun r hr => ?_, h.sound.scopes, h.sound.ids, fun r hr => h.inserted_by hr,
    fun hroom => ?_⟩
  · exact ⟨(h.wellFormed hr).checks.2, (h.wellFormed hr).pending_attempts⟩
  · exact ⟨fun c args now rest picked hc => h.claimRows_ok hc hroom,
      fun c args now r hc => h.complete_ok hc⟩

/-- An event is admitted, claimed by worker 1 for 10 µs, reclaimed by worker 2 when that lease
ends, and completed first by the stale worker 1, then by worker 2. -/
def reclaimRun : List Act :=
  let args : AdmitArgs :=
    ⟨⟨7⟩, "orders-api", "order.created", .bool true, "k", List.replicate 32 0⟩
  [.begin (.admitEvent args), .advance 0, .advance 0, .signal 0 .reply,
    .begin (.claim ⟨⟨1⟩, 4, 10⟩), .advance 1, .advance 1, .advance 1, .signal 1 .reply,
    .tick 10,
    .begin (.claim ⟨⟨2⟩, 4, 10⟩), .advance 2, .advance 2, .advance 2, .signal 2 .reply,
    .begin (.complete ⟨⟨7⟩, ⟨1⟩⟩), .advance 3, .advance 3, .signal 3 .reply,
    .begin (.complete ⟨⟨7⟩, ⟨2⟩⟩), .advance 4, .advance 4, .advance 4, .signal 4 .reply]

/-- The invariant after the whole run, where one row has been through every write. -/
theorem table_invariant_reclaimed :
    ∃ s, Machine.run step (empty 0) reclaimRun = some s ∧
      s.events.map (fun r => (r.status, r.deliveryAttempts)) = [(.processed, 2)] ∧
      ∀ r ∈ s.events, r.LifecycleConsistent ∧ (r.status = .pending → r.deliveryAttempts = 0) := by
  have hrun : (Machine.run step (empty 0) reclaimRun).map (fun s =>
      s.events.map fun r => (r.status, r.deliveryAttempts)) = some [(.processed, 2)] := by
    decide +kernel
  obtain ⟨s, hs, hobs⟩ := Option.map_eq_some_iff.mp hrun
  exact ⟨s, hs, hobs, (table_invariant ⟨0, _, hs⟩).1⟩

/-! ## Attempts -/

section Attempts

variable {F : Type} [SerdeJson F]

/-- A claimed event is a claim in the log: the same event and attempt, and taken over exactly if
the claimed row was `PROCESSING`. -/
theorem Reachable.claimed_logged (h : s.Reachable) {i : ℕ} {call : Call}
    (hi : s.calls[i]? = some call) {x : ClaimedEvent (Json Token)} (hx : x ∈ call.claimedEvents) :
    ∃ w ∈ s.history x.event.id, w.call = i ∧ w.attempt = some (x.attempt : ℤ) ∧
      (x.reclaimed = true ↔ 2 ≤ x.attempt) := by
  obtain ⟨g, hg, hdecode, -⟩ := Call.granted hx
  obtain ⟨hid, -, -, -, hattempt, hreclaimed⟩ := Grant.decode_eq_ok hdecode
  obtain ⟨owner, now, lease, hlog⟩ := h.grant_logged hi hg
  refine ⟨_, mem_history.mpr ⟨hlog, hid.symm⟩, rfl, by rw [hattempt]; rfl, ?_⟩
  obtain ⟨r, hr, hrid⟩ := h.traced.known _ hlog
  have hmem := mem_history.mpr ⟨hlog, hrid.symm⟩
  obtain ⟨-, -, hprev⟩ := (h.traced.trail r hr).reclaimed _ hmem owner now lease g.previous rfl
  rw [hreclaimed, hprev, ← hattempt]
  exact Nat.ofNat_le_cast

theorem Reachable.attempt_unique (h : s.Reachable) {id : EventId} {w w' : Write}
    (hw : w ∈ s.history id) (hw' : w' ∈ s.history id) {n : ℤ} (hn : w.attempt = some n)
    (hn' : w'.attempt = some n) : w = w' := by
  obtain ⟨hlog, hid⟩ := mem_history.mp hw
  obtain ⟨r, hr, hrid⟩ := h.traced.known w hlog
  obtain rfl : r.eventId = id := hrid.trans hid
  exact (h.traced.trail r hr).attempt_inj w hw w' hw' n hn hn'

/-- **Attempts.** The claims of every event are numbered `1, …, k` in commit order, with `k` the
row's `delivery_attempts`; no two calls return the same attempt and no call returns an event
twice; and a claimed event is marked as reclaimed exactly from the second attempt on. -/
theorem attempts_exact (h : s.Reachable) :
    (∀ w ∈ s.log, ∃ r ∈ s.events, r.eventId = w.row.eventId) ∧
    (∀ r ∈ s.events, 0 ≤ r.deliveryAttempts ∧ (s.history r.eventId).filterMap Write.attempt =
      (List.range' 1 r.deliveryAttempts.toNat).map Int.ofNat) ∧
    (∀ (i : ℕ) (a : Call), s.calls[i]? = some a → ∀ x ∈ a.claimedEvents,
      ∃ w ∈ s.history x.event.id, w.call = i ∧ w.attempt = some (x.attempt : ℤ)) ∧
    (∀ (i j : ℕ) (a b : Call), s.calls[i]? = some a → s.calls[j]? = some b →
      ∀ x ∈ a.claimedEvents, ∀ y ∈ b.claimedEvents,
        x.event.id = y.event.id → x.attempt = y.attempt → i = j) ∧
    (∀ (i : ℕ) (a : Call), s.calls[i]? = some a → (a.claimedEvents.map (·.event.id)).Nodup) ∧
    (∀ (i : ℕ) (a : Call), s.calls[i]? = some a →
      ∀ x ∈ a.claimedEvents, (x.reclaimed = true ↔ 2 ≤ x.attempt)) := by
  refine ⟨h.traced.known, fun r hr => ?_, ?_, ?_, ?_, ?_⟩
  · exact ⟨(h.wellFormed hr).attempts_nonneg, (h.traced.trail r hr).attempts⟩
  · intro i a hi x hx
    obtain ⟨w, hw, hcall, hn, -⟩ := h.claimed_logged hi hx
    exact ⟨w, hw, hcall, hn⟩
  · intro i j a b hi hj x hx y hy hid hattempt
    obtain ⟨w, hw, rfl, hn, -⟩ := h.claimed_logged hi hx
    obtain ⟨w', hw', rfl, hn', -⟩ := h.claimed_logged hj hy
    rw [hid] at hw
    rw [hattempt] at hn
    rw [h.attempt_unique hw hw' hn hn']
  · intro i a hi
    rcases a.claimedEvents_spec with hnil | ⟨-, hall⟩
    · rw [hnil]
      exact List.nodup_nil
    · have hids : a.claimedEvents.map (·.event.id) = a.grants.map (·.row.eventId) := by
        refine List.forall₂_eq_eq_eq ▸ (List.forall₂_map_left_iff.mpr
          (List.forall₂_map_right_iff.mpr ?_))
        exact hall.flip.imp fun x g hg => (Grant.decode_eq_ok hg).1
      rw [hids]
      exact h.grants_nodup hi
  · intro i a hi x hx
    obtain ⟨-, -, -, -, hreclaimed⟩ := h.claimed_logged hi hx
    exact hreclaimed

end Attempts

section Reclaimed

attribute [local instance] SampleFloat.serde

/-- The two claims of the run return attempts 1 and 2, the second one reclaimed. -/
theorem attempts_exact_reclaimed :
    ∃ s, Machine.run step (empty 0) reclaimRun = some s ∧
      s.calls.map (fun a => a.claimedEvents.map fun x => (x.attempt, x.reclaimed)) =
        [[], [(1, false)], [(2, true)], [], []] ∧
      ∀ r ∈ s.events, 0 ≤ r.deliveryAttempts ∧ (s.history r.eventId).filterMap Write.attempt =
        (List.range' 1 r.deliveryAttempts.toNat).map Int.ofNat := by
  have hrun : (Machine.run step (empty 0) reclaimRun).map (fun s =>
      s.calls.map fun a => a.claimedEvents.map fun x => (x.attempt, x.reclaimed)) =
        some [[], [(1, false)], [(2, true)], [], []] := by decide +kernel
  obtain ⟨s, hs, hobs⟩ := Option.map_eq_some_iff.mp hrun
  exact ⟨s, hs, hobs, (attempts_exact ⟨0, _, hs⟩).2.1⟩

end Reclaimed

/-! ## Leases -/

/-- All that can happen to a row in one transition. -/
theorem Transition.changes {c : ℕ} {call call' : Call} {events : List Row} {ws : List Write}
    (hs : s.Sound) (hc : s.calls[c]? = some call) (h : Transition s c call call' events ws)
    {r : Row} (hr : r ∈ s.events) :
    r ∈ events ∨
    (∃ args now, call = .complete args (.running (.locked now r)) ∧
      call' = .complete args (.committed true) ∧ args.id = r.eventId ∧ r.OwnedBy args.owner ∧
      r.completed now ∈ events) ∨
    (∃ args now rest picked, call = .claim args (.running (.scanning now rest picked)) ∧
      r ∈ picked ∧ r.Claimable now ∧ r.claimed args.owner now args.lease ∈ events) := by
  have hv := hs.calls c call hc
  by_cases hfree : ∀ l ∈ call.lockedRows, l.eventId ≠ r.eventId
  · exact .inl (h.keeps hr hfree)
  · -- the call holds the lock, and the locked version is the row
    push Not at hfree
    obtain ⟨l, hl, hid⟩ := hfree
    obtain rfl := hs.eq_of_id (hv.locked l hl) hr hid
    cases h with
    | move h => exact .inl hr
    | insert => exact .inl (List.mem_append_left _ hr)
    | @claim args now rest picked hdone hroom =>
      refine .inr (.inr ⟨args, now, rest, picked, rfl, hl, hv.coherent.1 l hl, ?_⟩)
      refine Table.new_mem_put ?_ hr (List.mem_map_of_mem hl) rfl
      rw [List.map_map]
      exact hv.coherent.2.sublist (List.sublist_append_left _ _)
    | @complete args now l' =>
      obtain rfl := List.mem_singleton.mp hl
      refine .inr (.inl ⟨args, now, rfl, rfl, hv.coherent.1.symm, hv.coherent.2, ?_⟩)
      exact Table.new_mem_put (List.nodup_singleton _) hr (List.mem_singleton.mpr rfl) rfl

theorem Steps.changes (hs : s.Sound) {a : Act} (h : Steps s a s') {r : Row} (hr : r ∈ s.events) :
    r ∈ s'.events ∨
    (∃ (c : ℕ) (args : CompleteArgs) (now : Timestamp),
      s.calls[c]? = some (.complete args (.running (.locked now r))) ∧
      s'.calls[c]? = some (.complete args (.committed true)) ∧ args.id = r.eventId ∧
      r.OwnedBy args.owner ∧ r.completed now ∈ s'.events) ∨
    (∃ (c : ℕ) (args : ClaimArgs) (now : Timestamp) (rest : List EventId) (picked : List Row),
      s.calls[c]? = some (.claim args (.running (.scanning now rest picked))) ∧
      r ∈ picked ∧ r.Claimable now ∧ r.claimed args.owner now args.lease ∈ s'.events) := by
  cases h with
  | tick now => exact .inl hr
  | begin req => exact .inl hr
  | call hc h =>
    rcases h.changes hs hc hr with hkept | ⟨args, now, rfl, rfl, hid, howned, hmem⟩ |
      ⟨args, now, rest, picked, rfl, hp, hclaim, hmem⟩
    · exact .inl hkept
    · refine .inr (.inl ⟨_, args, now, hc, ?_, hid, howned, hmem⟩)
      exact List.getElem?_set_self (List.getElem?_eq_some_iff.mp hc).1
    · exact .inr (.inr ⟨_, args, now, rest, picked, hc, hp, hclaim, hmem⟩)

theorem Reachable.complete_written (h : s.Reachable) {c : ℕ} {args : CompleteArgs}
    {p : Progress CompleteStage Bool} (hc : s.calls[c]? = some (.complete args p))
    (hp : p.answer = some true) :
    ∃ w ∈ s.history args.id, w.isComplete = true ∧ w.call = c := by
  have ha := h.accounted.accounts c _ hc
  have hwritten : ∃ now row, s.written c = [⟨c, .complete args.owner now, row⟩] := by
    cases p with
    | committed b | returned b =>
      obtain rfl := Option.some.inj hp
      exact ha
    | _ => cases hp
  obtain ⟨now, row, hw⟩ := hwritten
  have hlog := (mem_written.mp (hw ▸ List.mem_singleton.mpr rfl :
    (⟨c, .complete args.owner now, row⟩ : Write) ∈ s.written c)).1
  obtain ⟨call, hcall, hauth⟩ := h.accounted.authors _ hlog
  obtain rfl := Option.some.inj (hc.symm.trans hcall)
  exact ⟨_, mem_history.mpr ⟨hlog, hauth.2⟩, rfl, rfl⟩

theorem Reachable.processed_of_write (h : s.Reachable) {r : Row} (hr : r ∈ s.events) {w : Write}
    (hw : w ∈ s.history r.eventId) (hcomplete : w.isComplete = true) : r.status = .processed := by
  have hcount := (h.traced.trail r hr).completions
  by_contra hnot
  rw [if_neg hnot] at hcount
  exact List.countP_eq_zero.mp hcount _ hw hcomplete

section Owned

variable {r : Row} {owner other : WorkerId} {c : ℕ} {p : Progress CompleteStage Bool}
  (h : s.Reachable) (hr : r ∈ s.events) (howned : r.OwnedBy owner) (hne : other ≠ owner)
  (hc : s.calls[c]? = some (.complete ⟨r.eventId, other⟩ p))

include h hr howned hne

theorem Reachable.not_owned_by_other :
    (s.rowOf r.eventId).filter (fun r => r.OwnedBy other) = none := by
  have hl : s.rowOf r.eventId = some r := Table.lookup_of_mem h.sound.ids hr
  rw [hl, Option.filter_some, if_neg]
  simp only [decide_eq_true_eq]
  intro hother
  exact hne (Option.some.inj (hother.2.symm.trans howned.2))

include hc

theorem Reachable.stale_complete_run {now : Timestamp} (hp : p = .running (.begun now)) :
    Machine.run step s [.advance c, .advance c] =
      some (s.setCall c (.complete ⟨r.eventId, other⟩ (.committed false))) := by
  subst hp
  have hlt := (List.getElem?_eq_some_iff.mp hc).1
  have h₁ : s.step (.advance c) =
      some (s.setCall c (.complete ⟨r.eventId, other⟩ (.running .unmatched))) := by
    simp only [step, advance, hc, advanceComplete, h.not_owned_by_other hr howned hne]
  have h₂ : (s.setCall c (.complete ⟨r.eventId, other⟩ (.running .unmatched))).calls[c]? =
      some (.complete ⟨r.eventId, other⟩ (.running .unmatched)) := List.getElem?_set_self hlt
  have h₃ : (s.setCall c (.complete ⟨r.eventId, other⟩ (.running .unmatched))).step (.advance c) =
      some (s.setCall c (.complete ⟨r.eventId, other⟩ (.committed false))) := by
    simp only [step, advance, h₂, advanceComplete]
    simp only [setCall, List.set_set]
  exact Machine.run_cons_eq_some.mpr ⟨_, h₁, Machine.run_cons_eq_some.mpr ⟨_, h₃, rfl⟩⟩

theorem Reachable.stale_complete_step {a : Act} {p' : Progress CompleteStage Bool}
    (hstep : s.step a = some s') (hc' : s'.calls[c]? = some (.complete ⟨r.eventId, other⟩ p'))
    (hp' : p' ≠ p) : s'.events = s.events ∧ p'.answer ≠ some true := by
  have hv := h.sound.calls c _ hc
  have hsame : s'.events = s.events := by
    cases step_spec hstep with
    | tick now => rfl
    | begin req => rfl
    | @call _ i call call' events ws hi ht =>
      rcases calls_setCall hc' with ⟨rfl, rfl⟩ | ⟨-, hc''⟩
      · obtain rfl := Option.some.inj (hc.symm.trans hi)
        cases ht with
        | move h => rfl
        | complete =>
          have hl := hv.locked _ (List.mem_singleton.mpr rfl)
          obtain rfl := h.sound.eq_of_id hl hr hv.coherent.1
          exact absurd (Option.some.inj (hv.coherent.2.2.symm.trans howned.2)) hne
      · exact absurd (Option.some.inj (hc''.symm.trans hc)) (by simpa using hp')
  refine ⟨hsame, fun htrue => ?_⟩
  obtain ⟨w, hw, hcomplete, -⟩ := (h.next hstep).complete_written hc' htrue
  have hdone := (h.next hstep).processed_of_write (hsame ▸ hr) hw hcomplete
  exact absurd (hdone.symm.trans howned.1) (by decide)

end Owned

/-- **Leases.** A later claim of an event is made at or after the end of every earlier lease. A
row under a claim changes only by its owner's completion, or by a claim made after its lease; a
completion by another worker answers `false` and leaves the table as it was. -/
theorem leases_exclusive (h : s.Reachable) :
    (∀ w ∈ s.log, ∀ w' ∈ s.log, w.row.eventId = w'.row.eventId →
      ∀ n m, w.attempt = some n → w'.attempt = some m → n < m →
        ∃ e t, w.leaseEnd = some e ∧ w'.claimedAt = some t ∧ e ≤ t) ∧
    (∀ r ∈ s.events, ∀ owner, r.OwnedBy owner →
      ∀ (a : Act) (s' : Database), s.step a = some s' →
        r ∈ s'.events ∨
        (∃ (c : ℕ) (now : Timestamp),
          s.calls[c]? = some (.complete ⟨r.eventId, owner⟩ (.running (.locked now r))) ∧
          s'.calls[c]? = some (.complete ⟨r.eventId, owner⟩ (.committed true)) ∧
          r.completed now ∈ s'.events) ∨
        (∃ (owner' : WorkerId) (now : Timestamp) (lease : ℕ) (l : Timestamp),
          r.leaseExpiresAt = some l ∧ l ≤ now ∧ r.claimed owner' now lease ∈ s'.events)) ∧
    (∀ r ∈ s.events, ∀ owner, r.OwnedBy owner → ∀ other, other ≠ owner →
      ∀ (c : ℕ) (p : Progress CompleteStage Bool),
        s.calls[c]? = some (.complete ⟨r.eventId, other⟩ p) →
        (∀ now, p = .running (.begun now) →
          Machine.run step s [.advance c, .advance c] =
            some (s.setCall c (.complete ⟨r.eventId, other⟩ (.committed false)))) ∧
        ∀ (a : Act) (s' : Database) (p' : Progress CompleteStage Bool), s.step a = some s' →
          s'.calls[c]? = some (.complete ⟨r.eventId, other⟩ p') → p' ≠ p →
            s'.events = s.events ∧ p'.answer ≠ some true) := by
  refine ⟨?_, ?_, ?_⟩
  · intro w hw w' hw' hid n m hn hm hlt
    obtain ⟨r, hr, hrid⟩ := h.traced.known w hw
    exact (h.traced.trail r hr).leases w (mem_history.mpr ⟨hw, hrid.symm⟩) w'
      (mem_history.mpr ⟨hw', (hrid.trans hid).symm⟩) n hn m hm hlt
  · intro r hr owner howned a s' hstep
    rcases (step_spec hstep).changes h.sound hr with hkept |
      ⟨c, ⟨id, owner'⟩, now, hc, hc', rfl, howned', hmem⟩ |
      ⟨c, args, now, rest, picked, -, -, hclaim, hmem⟩
    · exact .inl hkept
    · obtain rfl := Option.some.inj (howned.2.symm.trans howned'.2)
      exact .inr (.inl ⟨c, now, hc, hc', hmem⟩)
    · obtain ⟨l, hl⟩ := (h.wellFormed hr).under_lease howned.1
      have hpast := (h.wellFormed hr).lease_passed hclaim hl
      exact .inr (.inr ⟨args.owner, now, args.lease, l, hl, hpast, hmem⟩)
  · intro r hr owner howned other hne c p hc
    exact ⟨fun now hp => h.stale_complete_run hr howned hne hc hp,
      fun a s' p' hstep hc' hp' => h.stale_complete_step hr howned hne hc hstep hc' hp'⟩

/-- In the run, attempt 2 is granted at the very end of the lease of attempt 1. -/
theorem leases_exclusive_reclaimed :
    ∃ s, Machine.run step (empty 0) reclaimRun = some s ∧
      s.log.map (fun w => (w.attempt, w.claimedAt, w.leaseEnd)) =
        [(none, none, none), (some 1, some 0, some 10), (some 2, some 10, some 20),
          (none, none, none)] ∧
      ∀ w ∈ s.log, ∀ w' ∈ s.log, w.row.eventId = w'.row.eventId →
        ∀ n m, w.attempt = some n → w'.attempt = some m → n < m →
          ∃ e t, w.leaseEnd = some e ∧ w'.claimedAt = some t ∧ e ≤ t := by
  have hrun : (Machine.run step (empty 0) reclaimRun).map (fun s =>
      s.log.map fun w => (w.attempt, w.claimedAt, w.leaseEnd)) =
        some [(none, none, none), (some 1, some 0, some 10), (some 2, some 10, some 20),
          (none, none, none)] := by decide +kernel
  obtain ⟨s, hs, hobs⟩ := Option.map_eq_some_iff.mp hrun
  exact ⟨s, hs, hobs, (leases_exclusive ⟨0, _, hs⟩).1⟩

end Database

end PulseStream
