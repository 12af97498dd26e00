import PulseStream.System.View

/-!
# Deliveries

A delivery is an event with its attempt number, as a claim hands it to a worker. In a whole run, and
over all workers, no delivery is handed out twice, and no two tasks work on the same one
(`deliveries_distinct`). An event can be delivered again while a task still works on it, but only
after the lease of that task has ended: on a clock that does not go back, at most one task at a time
has an open lease on an event (`one_open_lease`).
-/

namespace PulseStream

open Machine

/-- The claims that an action hands to a worker. -/
def SystemAct.deliveries : SystemAct → List (ℕ × ClaimedEvent (Json Token))
  | .worker k a => a.received.map (k, ·)
  | _ => []

/-- The claims handed out in a run, each with its worker. -/
def deliveries (acts : List SystemAct) : List (ℕ × ClaimedEvent (Json Token)) :=
  acts.flatMap SystemAct.deliveries

def ClaimedEvent.delivery {P : Type} (x : ClaimedEvent P) : EventId × ℕ := (x.event.id, x.attempt)

theorem decoded_ids {grants : List Grant} {xs : List (ClaimedEvent (Json Token))}
    (h : List.Forall₂ (fun g x => Grant.decode g = .ok x) grants xs) :
    xs.map (·.event.id) = grants.map (·.row.eventId) := by
  induction h with
  | nil => rfl
  | cons hdecode _ ih => rw [List.map_cons, List.map_cons, ih, (Grant.decode_eq_ok hdecode).1]

namespace Database

variable {F : Type} [SerdeJson F] {s : Database}

theorem Reachable.claimed_nodup (h : s.Reachable) {c : ℕ} {call : Call}
    (hc : s.calls[c]? = some call) : (call.claimedEvents.map (·.event.id)).Nodup := by
  rcases call.claimedEvents_spec with hnil | ⟨-, hall⟩
  · rw [hnil]
    exact List.nodup_nil
  · rw [decoded_ids hall]
    exact h.grants_nodup hc

theorem Reachable.delivery_call (h : s.Reachable) {c d : ℕ} {call call' : Call}
    (hc : s.calls[c]? = some call) (hd : s.calls[d]? = some call')
    {x y : ClaimedEvent (Json Token)} (hx : x ∈ call.claimedEvents)
    (hy : y ∈ call'.claimedEvents) (hxy : x.delivery = y.delivery) : c = d := by
  obtain ⟨hid, hattempt⟩ := Prod.mk.inj hxy
  obtain ⟨w, hw, rfl, hwa, -⟩ := h.claimed_logged hc hx
  obtain ⟨w', hw', rfl, hwa', -⟩ := h.claimed_logged hd hy
  rw [← hid] at hw'
  rw [← hattempt] at hwa'
  rw [h.attempt_unique hw hw' hwa hwa']

end Database

namespace System

variable {F : Type} [SerdeJson F] {s s' : System} {a : SystemAct} {clock : Timestamp}
  {acts : List SystemAct}

/-! ## Distinct deliveries -/

/-- The deliveries `ds` are distinct, and each was returned by a claim of its worker. -/
structure Delivered (ds : List (ℕ × ClaimedEvent (Json Token))) (s : System) : Prop where
  distinct : (ds.map fun x => x.2.delivery).Nodup
  returned : ∀ x ∈ ds, ∃ (c : ℕ) (args : ClaimArgs) (grants : List Grant) (w : Worker),
    s.db.calls[c]? = some (.claim args (.returned grants)) ∧
      x.2 ∈ (Call.claim args (.returned grants)).claimedEvents ∧
      s.workers[x.1]? = some w ∧ w.owner = args.owner

theorem Delivered.kept {ds : List (ℕ × ClaimedEvent (Json Token))} (h : Delivered ds s)
    (hext : s.Extends s') {x : ℕ × ClaimedEvent (Json Token)} (hx : x ∈ ds) :
    ∃ (c : ℕ) (args : ClaimArgs) (grants : List Grant) (w : Worker),
      s.db.calls[c]? = some (.claim args (.returned grants)) ∧
      s'.db.calls[c]? = some (.claim args (.returned grants)) ∧
      x.2 ∈ (Call.claim args (.returned grants)).claimedEvents ∧
      s'.workers[x.1]? = some w ∧ w.owner = args.owner := by
  obtain ⟨c, args, grants, w, hc, hmem, hw, howner⟩ := h.returned x hx
  obtain ⟨w', hw', howner'⟩ := hext.workers x.1 w hw
  exact ⟨c, args, grants, w', hc, hext.carries.returned hc rfl, hmem, hw', howner'.trans howner⟩

theorem Delivered.quiet {ds : List (ℕ × ClaimedEvent (Json Token))} (h : Delivered ds s)
    (hext : s.Extends s') (hnone : a.deliveries = []) : Delivered (ds ++ a.deliveries) s' := by
  rw [hnone, List.append_nil]
  refine ⟨h.distinct, fun x hx => ?_⟩
  obtain ⟨c, args, grants, w, -, hrest⟩ := h.kept hext hx
  exact ⟨c, args, grants, w, hrest⟩

theorem claiming_owner (h : run step (empty clock) acts = some s) {k : ℕ} {w : Worker}
    (hw : s.workers[k]? = some w) {c : ℕ} (hphase : w.phase = .claiming c) {args : ClaimArgs}
    {p : Progress ClaimStage (List Grant)} (hc : s.db.calls[c]? = some (.claim args p)) :
    w.owner = args.owner := by
  obtain ⟨e, -, rfl, hlink⟩ := executions h hw
  obtain ⟨q, hq⟩ := hlink.claiming c hphase
  obtain ⟨rfl, -⟩ := Call.claim.inj (Option.some.inj (hc.symm.trans hq))
  rfl

theorem delivered_step {ds : List (ℕ × ClaimedEvent (Json Token))}
    (hrun : run step (empty clock) acts = some s) (h : Delivered ds s)
    (hstep : s.step a = some s') : Delivered (ds ++ a.deliveries) s' := by
  have hs : s.Reachable := ⟨clock, acts, hrun⟩
  have hs' := hs.next hstep
  have hspec := step_spec hstep
  have hext := hspec.extends
  cases hspec with
  | store hown hact => exact h.quiet hext rfl
  | start hpos => exact h.quiet hext rfl
  | @worker k b w w' db hw hlive hw' hdb =>
    cases hdb with
    | @claimReturned c args grants claims _ hphase hc hclaims hact =>
      have hcall : db.calls[c]? = some (.claim args (.returned grants)) :=
        Database.step_signal hc rfl hact
      have hevents : (Call.claim args (.returned grants)).claimedEvents = claims := by
        unfold Call.claimedEvents
        simp only [Call.grants, Progress.answer, Option.getD_some, hclaims]
      have hnew : ∀ x ∈ claims.map (k, ·), x.1 = k ∧ x.2 ∈ claims := by
        intro x hx
        obtain ⟨y, hy, rfl⟩ := List.mem_map.mp hx
        exact ⟨rfl, hy⟩
      refine ⟨?_, fun x hx => ?_⟩
      · rw [List.map_append]
        refine List.Nodup.append h.distinct ?_ ?_
        · have hids := hs'.db.claimed_nodup hcall
          rw [hevents] at hids
          refine List.Nodup.of_map Prod.fst ?_
          rw [List.map_map]
          show ((claims.map (k, ·)).map fun x => x.2.event.id).Nodup
          rwa [List.map_map]
        · -- the old deliveries belong to calls that had returned before
          intro key hold hkey
          obtain ⟨x, hx, rfl⟩ := List.mem_map.mp hold
          obtain ⟨y, hy, hxy⟩ := List.mem_map.mp hkey
          obtain ⟨d, args', grants', -, hd, hd', hmem, -⟩ := h.kept hext hx
          obtain rfl := hs'.db.delivery_call hcall hd' (hevents ▸ (hnew y hy).2) hmem hxy
          cases hc.symm.trans hd
      · rcases List.mem_append.mp hx with hold | hx
        · obtain ⟨d, args', grants', w₀, -, hrest⟩ := h.kept hext hold
          exact ⟨d, args', grants', w₀, hrest⟩
        · obtain ⟨hk, hmem⟩ := hnew x hx
          refine ⟨c, args, grants, w', hcall, hevents ▸ hmem, ?_, ?_⟩
          · rw [hk]
            exact List.getElem?_set_self (List.getElem?_eq_some_iff.mp hw).1
          · exact hw'.owner.trans (claiming_owner hrun hw hphase hc)
    | claimSent | completeSent | completeReturned => exact h.quiet hext rfl
    | alone hlocal =>
      refine h.quiet hext ?_
      cases b with
      | claimReturned result =>
        cases result with
        | error e => rfl
        | ok claims => cases hlocal
      | _ => rfl

theorem run_delivered (h : run step (empty clock) acts = some s) :
    Delivered (PulseStream.deliveries acts) s := by
  refine run_invariant (P := fun acts t => Delivered (PulseStream.deliveries acts) t)
    ⟨List.nodup_nil, fun x hx => (by cases hx)⟩ ?_ h
  intro acts t a t' hrun hP ha
  have hsplit : PulseStream.deliveries (acts ++ [a]) =
      PulseStream.deliveries acts ++ a.deliveries := by
    simp [PulseStream.deliveries]
  rw [hsplit]
  exact delivered_step hrun hP ha

theorem Delivered.attempt_mem {ds : List (ℕ × ClaimedEvent (Json Token))} (h : Delivered ds s)
    (hs : s.Reachable) {r : Row} (hr : r ∈ s.db.events) {x : ℕ × ClaimedEvent (Json Token)}
    (hx : x ∈ ds) (hid : x.2.event.id = r.eventId) :
    x.2.attempt ∈ Finset.Icc 1 r.deliveryAttempts.toNat := by
  obtain ⟨c, args, grants, -, hc, hmem, -⟩ := h.returned x hx
  obtain ⟨w, hw, -, hattempt, -⟩ := hs.db.claimed_logged hc hmem
  have htrail := hs.db.traced.trail r hr
  have hw : w ∈ s.db.history r.eventId := hid ▸ hw
  have hnumbers := List.mem_filterMap.mpr ⟨w, hw, hattempt⟩
  rw [htrail.attempts] at hnumbers
  obtain ⟨n, hn, heq⟩ := List.mem_map.mp hnumbers
  obtain rfl : n = x.2.attempt := Int.ofNat_inj.mp heq
  obtain ⟨i, hi, hni⟩ := List.mem_range'.mp hn
  rw [Finset.mem_Icc]
  omega

theorem Delivered.count_le {ds : List (ℕ × ClaimedEvent (Json Token))} (h : Delivered ds s)
    (hs : s.Reachable) {r : Row} (hr : r ∈ s.db.events) :
    (ds.countP fun x => x.2.event.id = r.eventId) ≤ r.deliveryAttempts.toNat := by
  set mine := ds.filter fun x => x.2.event.id = r.eventId with hmine
  have hid : ∀ x ∈ mine, x.2.event.id = r.eventId := by
    intro x hx
    simpa using (List.mem_filter.mp hx).2
  have hnodup : (mine.map fun x => x.2.attempt).Nodup := by
    have hkeys : (mine.map fun x => x.2.delivery).Nodup :=
      h.distinct.sublist (List.filter_sublist.map _)
    refine List.Nodup.map_on ?_ (List.Nodup.of_map _ hkeys)
    intro x hx y hy hattempt
    exact List.inj_on_of_nodup_map hkeys hx hy
      (Prod.ext ((hid x hx).trans (hid y hy).symm) hattempt)
  have hsub : (mine.map fun x => x.2.attempt).toFinset ⊆
      Finset.Icc 1 r.deliveryAttempts.toNat := by
    intro n hn
    obtain ⟨x, hx, rfl⟩ := List.mem_map.mp (List.mem_toFinset.mp hn)
    exact h.attempt_mem hs hr (List.mem_filter.mp hx).1 (hid x hx)
  calc ds.countP (fun x => x.2.event.id = r.eventId)
      = mine.length := List.countP_eq_length_filter
    _ = (mine.map fun x => x.2.attempt).toFinset.card := by
      rw [List.toFinset_card_of_nodup hnodup, List.length_map]
    _ ≤ (Finset.Icc 1 r.deliveryAttempts.toNat).card := Finset.card_le_card hsub
    _ = r.deliveryAttempts.toNat := by rw [Nat.card_Icc]; omega

/-! ## Tasks and deliveries -/

/-- The claims of worker `k` among the deliveries are those its execution has received. -/
theorem deliveries_of (k : ℕ) (acts : List SystemAct) :
    (acts.filterMap (·.ofWorker k)).flatMap WorkerAct.received =
      ((PulseStream.deliveries acts).filter (·.1 = k)).map Prod.snd := by
  induction acts with
  | nil => rfl
  | cons a acts ih =>
    have hcons : PulseStream.deliveries (a :: acts) =
        a.deliveries ++ PulseStream.deliveries acts := by
      simp [PulseStream.deliveries]
    rw [hcons, List.filter_append, List.map_append, ← ih]
    cases a with
    | store a | start owner config => rfl
    | worker j b =>
      by_cases hjk : j = k
      · subst hjk
        simp [SystemAct.ofWorker, SystemAct.deliveries, List.filter_map, Function.comp_def]
      · simp [SystemAct.ofWorker, SystemAct.deliveries, hjk]

end System

namespace Execution

variable {owner : WorkerId} {config : WorkerRuntimeConfig} {e e' : Execution}

theorem run_received {as : List WorkerAct} (h : run step e as = some e') :
    e'.received = e.received ++ as.flatMap WorkerAct.received := by
  refine run_invariant
    (P := fun as t => t.received = e.received ++ as.flatMap WorkerAct.received) (by simp) ?_ h
  intro as t a t' _ hP ha
  cases step_spec ha with
  | step hroom hlive hw =>
    show t.received ++ a.received = _
    rw [hP]
    simp

/-- Tasks are spawned for the claims received, in their order; a crash may come before the last. -/
theorem Reachable.spawned_sublist (h : Reachable owner config e) :
    (e.spawned.map Task.claim).Sublist e.received := by
  refine (h.invariant (P := fun e => e.Tidy config ∧ (e.spawned.map Task.claim).Sublist e.received)
    ⟨tidy_start, List.Sublist.refl _⟩ ?_).2
  rintro t a t' ⟨htidy, hsub⟩ hstep
  have htidy' := htidy.step hstep
  refine ⟨htidy', ?_⟩
  by_cases hcrash : t'.worker.phase = .crashed
  · cases hstep with
    | step hroom hlive hw =>
      obtain rfl := hw.crashes hlive hcrash
      simpa [WorkerAct.received, Worker.spawns] using hsub
  · rw [← htidy'.claims hcrash]
    exact List.sublist_append_left _ _

end Execution

namespace System

variable {F : Type} [SerdeJson F] {s s' : System} {a : SystemAct} {clock : Timestamp}
  {acts : List SystemAct}

theorem spawned_delivery (h : run step (empty clock) acts = some s) {k : ℕ}
    {owner : WorkerId} {config : WorkerRuntimeConfig} {e : Execution}
    (he : run Execution.step (.start owner config) (acts.filterMap (·.ofWorker k)) = some e) :
    (∀ u ∈ e.spawned, (k, u.claim) ∈ PulseStream.deliveries acts) ∧
      ∀ u ∈ e.spawned, ∀ u' ∈ e.spawned, u.claim.delivery = u'.claim.delivery → u = u' := by
  have hreceived : e.received = ((PulseStream.deliveries acts).filter (·.1 = k)).map Prod.snd := by
    rw [← deliveries_of k acts]
    exact Execution.run_received he
  have hspawned := (Execution.reachable_of_run he).spawned_sublist
  constructor
  · intro u hu
    have hmem := hspawned.subset (List.mem_map_of_mem hu)
    rw [hreceived] at hmem
    obtain ⟨x, hx, hclaim⟩ := List.mem_map.mp hmem
    obtain ⟨hx, hk⟩ := List.mem_filter.mp hx
    obtain rfl : x = (k, u.claim) := Prod.ext (by simpa using hk) hclaim
    exact hx
  · have hkeys : (e.received.map ClaimedEvent.delivery).Nodup := by
      rw [hreceived, List.map_map]
      exact (run_delivered h).distinct.sublist (List.filter_sublist.map _)
    have hsub := hkeys.sublist (hspawned.map _)
    rw [List.map_map] at hsub
    intro u hu u' hu' heq
    exact List.inj_on_of_nodup_map hsub hu hu' heq

theorem task_unique (h : run step (empty clock) acts = some s) {k k' : ℕ} {w w' : Worker}
    (hk : s.workers[k]? = some w) (hk' : s.workers[k']? = some w') {t t' : Task}
    (ht : t ∈ w.tasks) (ht' : t' ∈ w'.tasks) (heq : t.claim.delivery = t'.claim.delivery) :
    k = k' ∧ t = t' := by
  obtain ⟨e, he, hw, -⟩ := executions h hk
  obtain ⟨e', he', hw', -⟩ := executions h hk'
  have htidy := (Execution.reachable_of_run he).tidy
  have hu := htidy.origin t (hw ▸ ht)
  have hu' := (Execution.reachable_of_run he').tidy.origin t' (hw' ▸ ht')
  obtain ⟨hmem, hone⟩ := spawned_delivery h he
  have hpair := List.inj_on_of_nodup_map (run_delivered h).distinct (hmem _ hu)
    ((spawned_delivery h he').1 _ hu') heq
  obtain rfl := (Prod.mk.inj hpair).1
  obtain rfl := Option.some.inj (hk.symm.trans hk')
  obtain rfl := Option.some.inj (he.symm.trans he')
  have hsame := (Task.mk.inj (hone _ hu _ hu' heq)).1
  subst hw
  exact ⟨rfl, List.inj_on_of_nodup_map htidy.numbered.nodup ht ht' hsame⟩

/-- **Distinct deliveries.** In a run no attempt of an event is handed out twice, whatever workers
there are; an event is delivered no more often than its row counts; and no two tasks work on the
same attempt of an event. -/
theorem deliveries_distinct (h : run step (empty clock) acts = some s) :
    ((PulseStream.deliveries acts).map fun x => x.2.delivery).Nodup ∧
    (∀ r ∈ s.db.events,
      (PulseStream.deliveries acts).countP (fun x => x.2.event.id = r.eventId) ≤
        r.deliveryAttempts.toNat) ∧
    (∀ (k k' : ℕ) (w w' : Worker), s.workers[k]? = some w → s.workers[k']? = some w' →
      ∀ t ∈ w.tasks, ∀ t' ∈ w'.tasks, t.claim.event.id = t'.claim.event.id →
        t.claim.attempt = t'.claim.attempt → k = k' ∧ t = t') := by
  have hdelivered := run_delivered h
  refine ⟨hdelivered.distinct, fun r hr => hdelivered.count_le ⟨clock, acts, h⟩ hr, ?_⟩
  intro k k' w w' hk hk' t ht t' ht' hid hattempt
  exact task_unique h hk hk' ht ht' (Prod.ext hid hattempt)

end System

namespace System

attribute [local instance] SampleFloat.serde

/-- In `overtakenRun` one worker is handed attempts 1 and 2 of the same event. -/
theorem deliveries_distinct_overtaken :
    ((PulseStream.deliveries overtakenRun).map fun x => (x.1, x.2.delivery)) =
        [(0, ⟨7⟩, 1), (0, ⟨7⟩, 2)] ∧
      ((PulseStream.deliveries overtakenRun).map fun x => x.2.delivery).Nodup := by
  have hrun : (run step (empty 0) overtakenRun).isSome = true := by decide +kernel
  obtain ⟨s, hs⟩ := Option.isSome_iff_exists.mp hrun
  exact ⟨by decide +kernel, (deliveries_distinct hs).1⟩

end System

/-! ## Open leases -/

/-- A claim in progress started in the past. -/
def Call.StartedBy (clock : Timestamp) : Call → Prop
  | .claim _ (.running (.begun now)) => now ≤ clock
  | .claim _ (.running (.scanning now _ _)) => now ≤ clock
  | _ => True

theorem Call.StartedBy.mono {clock clock' : Timestamp} {call : Call} (h : call.StartedBy clock)
    (hle : clock ≤ clock') : call.StartedBy clock' := by
  unfold StartedBy at h ⊢
  split at h
  · exact h.trans hle
  · exact h.trans hle
  · trivial

namespace Database

variable {s s' : Database} {a : Act} {c : ℕ} {call call' : Call} {events : List Row}
  {ws : List Write}

/-- All claims were made in the past. -/
structure Clocked (s : Database) : Prop where
  calls : ∀ (c : ℕ) (call : Call), s.calls[c]? = some call → call.StartedBy s.clock
  claims : ∀ w ∈ s.log, ∀ t ∈ w.claimedAt, t ≤ s.clock

theorem Transition.startedBy (h : Transition s c call call' events ws)
    (hcall : call.StartedBy s.clock) : call'.StartedBy s.clock := by
  cases h with
  | move h =>
    cases h with
    | snapshot | skip | pick => exact hcall
    | signal hsig =>
      rcases Call.signal_some hsig with ⟨_, _, _, rfl, rfl, hp⟩ | ⟨_, _, _, rfl, rfl, hp⟩ |
        ⟨_, _, _, rfl, rfl, hp⟩ <;>
      rcases Progress.signal_some hp with ⟨_, rfl⟩ | rfl | ⟨_, rfl, rfl⟩ <;>
      trivial
    | _ => trivial
  | _ => trivial

theorem Transition.claimedAt_le (h : Transition s c call call' events ws)
    (hcall : call.StartedBy s.clock) : ∀ w ∈ ws, ∀ t ∈ w.claimedAt, t ≤ s.clock := by
  intro w hw t ht
  cases h with
  | move h => cases hw
  | claim hdone hroom =>
    obtain ⟨r, -, rfl⟩ := List.mem_map.mp hw
    obtain rfl := Option.some.inj ht
    exact hcall
  | _ =>
    obtain rfl := List.mem_singleton.mp hw
    cases ht

theorem clocked_step (h : Steps s a s') (hs : s.Clocked)
    (htick : ∀ now, a = .tick now → s.clock ≤ now) : s'.Clocked := by
  cases h with
  | tick now =>
    have hle := htick now rfl
    exact ⟨fun c call hc => (hs.calls c call hc).mono hle,
      fun w hw t ht => (hs.claims w hw t ht).trans hle⟩
  | begin req =>
    refine ⟨fun c call hc => ?_, hs.claims⟩
    rcases calls_append hc with ⟨-, rfl⟩ | ⟨-, hc⟩
    · cases req with
      | claim args =>
        simp only [Request.start]
        split_ifs
        · trivial
        · exact le_refl s.clock
      | _ => trivial
    · exact hs.calls c call hc
  | call hi h =>
    have hcall := hs.calls _ _ hi
    refine ⟨fun c call hc => ?_, fun w hw => ?_⟩
    · rcases calls_setCall hc with ⟨rfl, rfl⟩ | ⟨-, hc⟩
      · exact h.startedBy hcall
      · exact hs.calls c call hc
    · rcases List.mem_append.mp hw with hold | hnew
      · exact hs.claims w hold
      · exact h.claimedAt_le hcall w hnew

/-- The lease that came with the delivery has not ended. -/
def OpenLease {P : Type} (s : Database) (x : ClaimedEvent P) : Prop :=
  ∃ g ∈ s.history x.event.id, g.attempt = some (x.attempt : ℤ) ∧ ∃ e ∈ g.leaseEnd, s.clock < e

theorem OpenLease.latest {P Q : Type} (hs : s.Reachable) (hclocked : s.Clocked)
    {x : ClaimedEvent P} (hx : s.OpenLease x) {y : ClaimedEvent Q} {g : Write}
    (hid : y.event.id = x.event.id) (hg : g ∈ s.history y.event.id)
    (hattempt : g.attempt = some (y.attempt : ℤ)) : y.attempt ≤ x.attempt := by
  obtain ⟨f, hf, hfn, e, he, hopen⟩ := hx
  by_contra hlt
  rw [hid] at hg
  obtain ⟨hlog, hgid⟩ := mem_history.mp hg
  obtain ⟨r, hr, hrid⟩ := hs.traced.known g hlog
  have heq : r.eventId = x.event.id := hrid.trans hgid
  rw [← heq] at hf hg
  obtain ⟨e', t, he', ht, hle⟩ := (hs.traced.trail r hr).leases f hf g hg _ hfn _ hattempt
    (by exact_mod_cast Nat.lt_of_not_le hlt)
  obtain rfl := Option.some.inj (he.symm.trans he')
  exact absurd (hle.trans (hclocked.claims g hlog t ht)) (not_le.mpr hopen)

end Database

namespace System

variable {F : Type} [SerdeJson F] {s s' : System} {a : SystemAct}

theorem Forward.clocked (h : s.Forward) : s.db.Clocked := by
  obtain ⟨clock, hs⟩ := h
  have hempty : (empty clock).db.Clocked :=
    ⟨fun c call hc => (by simp [empty, Database.empty] at hc), fun w hw => (by cases hw)⟩
  refine hs.invariant (P := fun t => t.db.Clocked) hempty ?_
  intro t a t' _ hclocked ha
  obtain ⟨htime, hstep⟩ := stepForward_some ha
  cases step_spec hstep with
  | store hown hact =>
    refine Database.clocked_step (Database.step_spec hact) hclocked ?_
    rintro now rfl
    simpa [keepsTime] using htime
  | start hpos => exact hclocked
  | worker hw hlive hw' hdb =>
    cases hdb with
    | alone hlocal => exact hclocked
    | claimSent hact | claimReturned _ _ _ hact | completeSent _ hact
    | completeReturned _ _ _ hact =>
      exact Database.clocked_step (Database.step_spec hact) hclocked fun now h => (by cases h)

/-- **One open lease.** On a clock that does not go back, at most one task of all workers has an
open lease on an event. -/
theorem one_open_lease (h : s.Forward) {k k' : ℕ} {w w' : Worker} (hk : s.workers[k]? = some w)
    (hk' : s.workers[k']? = some w') {t t' : Task} (ht : t ∈ w.tasks) (ht' : t' ∈ w'.tasks)
    (hid : t.claim.event.id = t'.claim.event.id) (hopen : s.db.OpenLease t.claim)
    (hopen' : s.db.OpenLease t'.claim) : k = k' ∧ t = t' := by
  have hreach := h.reachable
  obtain ⟨g, hg, hattempt⟩ := hreach.task_claim hk ht
  obtain ⟨g', hg', hattempt'⟩ := hreach.task_claim hk' ht'
  have hle := hopen'.latest hreach.db h.clocked hid hg hattempt
  have hge := hopen.latest hreach.db h.clocked hid.symm hg' hattempt'
  obtain ⟨clock, acts, hrun⟩ := hreach
  exact task_unique hrun hk hk' ht ht' (Prod.ext hid (le_antisymm hle hge))

end System

namespace System

attribute [local instance] SampleFloat.serde

/-- In `overtakenRun` the first task works on although its lease has ended at 10, and the second
one has a lease until 20. -/
theorem one_open_lease_overtaken :
    ∃ s w t, run stepForward (empty 0) overtakenRun = some s ∧ s.workers[0]? = some w ∧
      t ∈ w.tasks ∧ t.claim.attempt = 2 ∧ s.db.OpenLease t.claim ∧
      ∀ t' ∈ w.tasks, t'.claim.event.id = t.claim.event.id → s.db.OpenLease t'.claim → t' = t := by
  have hrun : (run stepForward (empty 0) overtakenRun).bind (fun s => s.workers[0]?.bind fun w =>
      w.tasks[1]?.bind fun t => (s.db.history t.claim.event.id)[2]?.map fun g =>
        decide (t.claim.attempt = 2 ∧ s.db.clock = 10 ∧ g.attempt = some 2 ∧
          g.leaseEnd = some 20)) = some true := by
    decide +kernel
  obtain ⟨s, hs, hobs⟩ := Option.bind_eq_some_iff.mp hrun
  obtain ⟨w, hw, hobs⟩ := Option.bind_eq_some_iff.mp hobs
  obtain ⟨t, ht, hobs⟩ := Option.bind_eq_some_iff.mp hobs
  obtain ⟨g, hg, hobs⟩ := Option.map_eq_some_iff.mp hobs
  obtain ⟨hattempt, hclock, hn, hend⟩ := of_decide_eq_true hobs
  have hmem := List.mem_of_getElem? ht
  have hopen : s.db.OpenLease t.claim := by
    refine ⟨g, List.mem_of_getElem? hg, ?_, 20, hend, ?_⟩
    · rw [hn, hattempt]
      rfl
    · rw [hclock]
      decide
  refine ⟨s, w, t, hs, hw, hmem, hattempt, hopen, fun t' ht' hid hopen' => ?_⟩
  exact (one_open_lease ⟨0, _, hs⟩ hw hw ht' hmem hid hopen' hopen).2

end System

end PulseStream
