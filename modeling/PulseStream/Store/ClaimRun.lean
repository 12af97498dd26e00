import PulseStream.Store.Leases

/-!
# A call on its own

What `Store::claim` does when no other call moves in between, though others may hold locks:
`run_claim_taken` says that it takes the first `limit` unlocked candidates, and `claim_takes` that a
claimable row is taken by every claim whose limit reaches it. `run_complete` is the same for
`Store::complete` by the owner of a row.
-/

namespace PulseStream

namespace Database

open KeySort

variable {s : Database}

/-- The database with one more call. -/
def withCall (s : Database) (call : Call) : Database := { s with calls := s.calls ++ [call] }

@[simp] theorem withCall_getElem? (call : Call) :
    (s.withCall call).calls[s.calls.length]? = some call := by
  simp [withCall]

@[simp] theorem withCall_setCall (call call' : Call) :
    (s.withCall call).setCall s.calls.length call' = s.withCall call' := by
  simp [withCall, setCall]

theorem withCall_lockedBySome (call : Call) (id : EventId) :
    (s.withCall call).lockedBySome id = (s.lockedBySome id || call.locks id) := by
  simp [withCall, lockedBySome]

/-- The claim, while it works through its candidates. -/
def scanningCall (args : ClaimArgs) (now : Timestamp) (rest : List EventId) (picked : List Row) :
    Call := .claim args (.running (.scanning now rest picked))

theorem pick_candidate (hs : s.Sound) {args : ClaimArgs} {now : Timestamp} {rest : List EventId}
    {picked : List Row} {r : Row} (hr : r ∈ s.events) (hclaim : r.Claimable now)
    (hnew : r.eventId ∉ picked.map (·.eventId)) :
    (s.withCall (scanningCall args now rest picked)).pick now r.eventId =
      if s.lockedBySome r.eventId then none else some r := by
  have hown : (scanningCall args now rest picked).locks r.eventId = false := by
    refine List.any_eq_false.mpr fun l hl hid => hnew ?_
    exact List.mem_map.mpr ⟨l, hl, by simpa using hid⟩
  have hlookup : (s.withCall (scanningCall args now rest picked)).rowOf r.eventId = some r :=
    Table.lookup_of_mem hs.ids hr
  unfold pick
  rw [withCall_lockedBySome, hown, Bool.or_false, hlookup]
  split_ifs with hlock
  · rfl
  · simp [hclaim]

theorem step_scan (s : Database) {args : ClaimArgs} (now : Timestamp) (id : EventId)
    (rest : List EventId) {picked : List Row} (hroom : picked.length ≠ args.sqlLimit) :
    (s.withCall (scanningCall args now (id :: rest) picked)).step (.advance s.calls.length) =
      some (s.withCall (scanningCall args now rest (picked ++
        ((s.withCall (scanningCall args now (id :: rest) picked)).pick now id).toList))) := by
  simp only [step, advance, withCall_getElem?, scanningCall, advanceClaim]
  rw [if_neg hroom, withCall_setCall]

theorem run_scan (hs : s.Sound) (args : ClaimArgs) (picked : List Row) {now : Timestamp}
    {rows : List Row}
    (hrows : ∀ r ∈ rows, r ∈ s.events ∧ r.Claimable now)
    (hnodup : ((picked ++ rows).map (·.eventId)).Nodup) (hlimit : picked.length ≤ args.sqlLimit) :
    ∃ n rest,
      Machine.run step (s.withCall (scanningCall args now (rows.map (·.eventId)) picked))
          (List.replicate n (.advance s.calls.length)) =
        some (s.withCall (scanningCall args now rest (picked ++
          (rows.filter fun r => !s.lockedBySome r.eventId).take (args.sqlLimit - picked.length)))) ∧
      (rest = [] ∨ (picked ++ (rows.filter fun r => !s.lockedBySome r.eventId).take
        (args.sqlLimit - picked.length)).length = args.sqlLimit) := by
  induction rows generalizing picked with
  | nil => exact ⟨0, [], by simp [Machine.run], .inl rfl⟩
  | cons r rows ih =>
    by_cases hfull : picked.length = args.sqlLimit
    · refine ⟨0, (r :: rows).map (·.eventId), ?_, .inr ?_⟩ <;>
        simp [Machine.run, hfull]
    · obtain ⟨hr, hclaim⟩ := hrows r List.mem_cons_self
      have hnew : r.eventId ∉ picked.map (·.eventId) := by
        rw [List.map_append, List.map_cons] at hnodup
        intro hmem
        exact (List.nodup_append.mp hnodup).2.2 _ hmem _ List.mem_cons_self rfl
      have hstep := step_scan s now r.eventId (rows.map (·.eventId)) hfull
      rw [pick_candidate hs hr hclaim hnew] at hstep
      cases hlock : s.lockedBySome r.eventId with
      | true =>
        rw [hlock, if_pos rfl, Option.toList_none, List.append_nil] at hstep
        have hsub : ((picked ++ rows).map (·.eventId)).Nodup :=
          hnodup.sublist (((List.sublist_cons_self r rows).append_left picked).map _)
        obtain ⟨n, rest, hrun, hdone⟩ := ih picked
          (fun q hq => hrows q (List.mem_cons_of_mem _ hq)) hsub hlimit
        rw [List.filter_cons_of_neg (by simp [hlock])]
        exact ⟨n + 1, rest, Machine.run_cons_eq_some.mpr ⟨_, hstep, hrun⟩, hdone⟩
      | false =>
        rw [hlock, if_neg (by simp), Option.toList_some] at hstep
        obtain ⟨n, rest, hrun, hdone⟩ := ih (picked ++ [r])
          (fun q hq => hrows q (List.mem_cons_of_mem _ hq)) (by simpa using hnodup)
          (by simp only [List.length_append, List.length_singleton]; omega)
        have htake : picked ++ ((r :: rows).filter fun r => !s.lockedBySome r.eventId).take
              (args.sqlLimit - picked.length) =
            picked ++ [r] ++ (rows.filter fun r => !s.lockedBySome r.eventId).take
              (args.sqlLimit - (picked ++ [r]).length) := by
          rw [List.filter_cons_of_pos (by simp [hlock]), List.length_append, List.length_singleton,
            show args.sqlLimit - picked.length = args.sqlLimit - (picked.length + 1) + 1 by omega,
            List.take_succ_cons, List.append_assoc, List.singleton_append]
        rw [htake]
        exact ⟨n + 1, rest, Machine.run_cons_eq_some.mpr ⟨_, hstep, hrun⟩, hdone⟩

/-- The rows that a claim alone takes. -/
def takenRows (s : Database) (args : ClaimArgs) : List Row :=
  ((s.candidateRows s.clock).filter fun r => !s.lockedBySome r.eventId).take args.sqlLimit

theorem mem_candidateRows {now : Timestamp} {r : Row} :
    r ∈ s.candidateRows now ↔ r ∈ s.events ∧ r.Claimable now := by
  unfold candidateRows
  rw [mem_keySort, List.mem_filter, decide_eq_true_iff]

theorem mem_takenRows {args : ClaimArgs} {r : Row} (h : r ∈ s.takenRows args) :
    r ∈ s.events ∧ r.Claimable s.clock :=
  mem_candidateRows.mp (List.mem_of_mem_filter (List.mem_of_mem_take h))

/-- The table, the calls and the log after the claim. -/
def afterClaim (s : Database) (args : ClaimArgs) : Database where
  events := Table.put (·.eventId) ((s.takenRows args).map fun r =>
    r.claimed args.owner s.clock args.lease) s.events
  clock := s.clock
  calls := s.calls ++ [.claim args (.committed ((s.takenRows args).map (args.grant s.clock)))]
  log := s.log ++ (s.takenRows args).map (args.write s.calls.length s.clock)

theorem step_commit (h : s.Reachable) {args : ClaimArgs}
    (hroom : ∀ r ∈ s.takenRows args, r.deliveryAttempts < integerMax) {rest : List EventId}
    (hover : rest = [] ∨ (s.takenRows args).length = args.sqlLimit) :
    (s.withCall (scanningCall args s.clock rest (s.takenRows args))).step
      (.advance s.calls.length) = some (s.afterClaim args) := by
  have hok : claimRows args s.clock (s.takenRows args) =
      .ok ((s.takenRows args).map (args.grant s.clock)) := by
    refine PulseStream.claimRows_ok fun r hr => ?_
    obtain ⟨hmem, hclaim⟩ := mem_takenRows hr
    exact (h.wellFormed hmem).claim_ok hclaim (hroom r hr)
  have hcommit : (s.withCall (scanningCall args s.clock rest (s.takenRows args))).commitClaim
      s.calls.length args s.clock (s.takenRows args) = s.afterClaim args := by
    unfold commitClaim
    rw [hok]
    simp only [withCall_setCall, List.map_map]
    rfl
  have hstep : (s.withCall (scanningCall args s.clock rest (s.takenRows args))).step
      (.advance s.calls.length) = (s.withCall (scanningCall args s.clock rest
        (s.takenRows args))).advanceClaim s.calls.length args
          (.scanning s.clock rest (s.takenRows args)) := by
    simp only [step, advance, withCall_getElem?, scanningCall]
  rw [hstep]
  cases rest with
  | nil => exact congrArg some hcommit
  | cons id rest =>
    obtain hnil | hfull := hover
    · cases hnil
    · simp only [advanceClaim]
      rw [if_pos hfull, hcommit]

theorem step_begin {args : ClaimArgs} (hlimit : args.limit ≠ 0) :
    s.step (.begin (.claim args)) =
      some (s.withCall (.claim args (.running (.begun s.clock)))) := by
  simp only [step, Request.start, hlimit, if_false]
  rfl

/-- The claim up to its UPDATE: it has locked the first `limit` unlocked candidates. -/
theorem run_scanned (hs : s.Sound) (args : ClaimArgs) :
    ∃ n rest,
      Machine.run step (s.withCall (.claim args (.running (.begun s.clock))))
          (List.replicate n (.advance s.calls.length)) =
        some (s.withCall (scanningCall args s.clock rest (s.takenRows args))) ∧
      (rest = [] ∨ (s.takenRows args).length = args.sqlLimit) := by
  have hscan : (s.withCall (.claim args (.running (.begun s.clock)))).step
      (.advance s.calls.length) = some (s.withCall
        (scanningCall args s.clock ((s.candidateRows s.clock).map (·.eventId)) [])) := by
    simp only [step, advance, withCall_getElem?, advanceClaim, withCall_setCall]
    rfl
  obtain ⟨n, rest, hrun, hover⟩ := run_scan hs args []
    (fun r hr => mem_candidateRows.mp hr) (candidates_nodup hs s.clock) (Nat.zero_le _)
  exact ⟨n + 1, rest, Machine.run_cons_eq_some.mpr ⟨_, hscan, hrun⟩, hover⟩

/-- **A claim alone.** It takes the first `limit` unlocked candidates. -/
theorem run_claim_taken (h : s.Reachable) {args : ClaimArgs}
    (hroom : ∀ r ∈ s.takenRows args, r.deliveryAttempts < integerMax) (hlimit : args.limit ≠ 0) :
    ∃ n, Machine.run step s (.begin (.claim args) :: List.replicate n (.advance s.calls.length)) =
      some (s.afterClaim args) := by
  obtain ⟨n, rest, hrun, hover⟩ := run_scanned h.sound args
  refine ⟨n + 1, Machine.run_cons_eq_some.mpr ⟨_, step_begin hlimit, ?_⟩⟩
  rw [List.replicate_succ']
  exact Machine.run_append hrun (Machine.run_cons_eq_some.mpr ⟨_, step_commit h hroom hover, rfl⟩)

theorem run_claim (h : s.Reachable) (hroom : ∀ r ∈ s.events, r.deliveryAttempts < integerMax)
    {args : ClaimArgs} (hlimit : args.limit ≠ 0) :
    ∃ n, Machine.run step s (.begin (.claim args) :: List.replicate n (.advance s.calls.length)) =
      some (s.afterClaim args) :=
  run_claim_taken h (fun r hr => hroom r (mem_takenRows hr).1) hlimit

/-- The claimable rows up to and including `r` in the order of the candidates. -/
def rank (s : Database) (r : Row) : ℕ :=
  (s.events.filter fun q => q.Claimable s.clock ∧ q.claimKey ≤ r.claimKey).length

theorem mem_takenRows_of_rank {args : ClaimArgs} {r : Row} (hr : r ∈ s.events)
    (hclaim : r.Claimable s.clock) (hfree : s.lockedBySome r.eventId = false)
    (hrank : s.rank r ≤ args.sqlLimit) : r ∈ s.takenRows args := by
  have hsorted : (s.candidateRows s.clock).Pairwise fun a b => a.claimKey ≤ b.claimKey :=
    keySort_sorted _ _
  refine mem_take_of_sorted (fun r : Row => r.claimKey) (hsorted.filter _) ?_ ?_
  · exact List.mem_filter.mpr ⟨mem_candidateRows.mpr ⟨hr, hclaim⟩, by simp [hfree]⟩
  · calc _ ≤ ((s.candidateRows s.clock).filter fun q => q.claimKey ≤ r.claimKey).length :=
        (List.filter_sublist.filter _).length_le
      _ = s.rank r := by
        unfold candidateRows rank
        rw [((keySort_perm _ _).filter _).length_eq, List.filter_filter]
        simp [and_comm]
      _ ≤ args.sqlLimit := hrank

theorem rank_pos {r : Row} (hr : r ∈ s.events) (hclaim : r.Claimable s.clock) : 0 < s.rank r :=
  List.length_pos_of_mem (List.mem_filter.mpr ⟨hr, by simp [hclaim]⟩)

/-- **An unlocked claimable row is taken** by every claim whose limit reaches its rank. -/
theorem claim_takes (h : s.Reachable) (hroom : ∀ q ∈ s.events, q.deliveryAttempts < integerMax)
    {r : Row} (hr : r ∈ s.events) (hclaim : r.Claimable s.clock)
    (hfree : s.lockedBySome r.eventId = false) {args : ClaimArgs}
    (hrank : s.rank r ≤ args.sqlLimit) :
    ∃ n s' grants,
      Machine.run step s (.begin (.claim args) :: List.replicate n (.advance s.calls.length)) =
        some s' ∧
      s'.calls[s.calls.length]? = some (.claim args (.committed grants)) ∧
      args.grant s.clock r ∈ grants ∧ r.claimed args.owner s.clock args.lease ∈ s'.events := by
  have hlimit : args.limit ≠ 0 := by
    have hpos := (rank_pos hr hclaim).trans_le (hrank.trans (min_le_left _ _))
    omega
  have htaken := mem_takenRows_of_rank hr hclaim hfree hrank
  obtain ⟨n, hrun⟩ := run_claim h hroom hlimit
  refine ⟨n, _, _, hrun, List.getElem?_concat_length, List.mem_map_of_mem htaken, ?_⟩
  refine Table.new_mem_put ?_ hr (List.mem_map_of_mem htaken) rfl
  rw [List.map_map]
  have hsub : (s.takenRows args).Sublist (s.candidateRows s.clock) :=
    (List.take_sublist _ _).trans List.filter_sublist
  exact (candidates_nodup h.sound s.clock).sublist (hsub.map _)

/-- The table, the calls and the log after the owner's completion. -/
def afterComplete (s : Database) (r : Row) (owner : WorkerId) : Database where
  events := Table.put (·.eventId) [r.completed s.clock] s.events
  clock := s.clock
  calls := s.calls ++ [.complete ⟨r.eventId, owner⟩ (.committed true)]
  log := s.log ++ [⟨s.calls.length, .complete owner s.clock, r.completed s.clock⟩]

theorem run_complete (h : s.Reachable) {r : Row} (hr : r ∈ s.events) {owner : WorkerId}
    (howned : r.OwnedBy owner) (hfree : s.lockedBySome r.eventId = false) :
    Machine.run step s (.begin (.complete ⟨r.eventId, owner⟩) ::
      List.replicate 3 (.advance s.calls.length)) = some (s.afterComplete r owner) := by
  have hrow : (s.rowOf r.eventId).filter (fun q => q.OwnedBy owner) = some r := by
    rw [show s.rowOf r.eventId = some r from Table.lookup_of_mem h.sound.ids hr]
    simp [howned]
  -- the call as it goes through its statements; the table is the same until the last one
  let mid := fun stage => s.withCall (.complete ⟨r.eventId, owner⟩ (.running stage))
  have hmid : ∀ stage, (mid stage).step (.advance s.calls.length) =
      (mid stage).advanceComplete s.calls.length ⟨r.eventId, owner⟩ stage := by
    intro stage
    simp only [mid, step, advance, withCall_getElem?]
  have hfind : ∀ stage, ((mid stage).rowOf r.eventId).filter (fun q => q.OwnedBy owner) =
      some r := fun _ => hrow
  have hfound : (mid (.begun s.clock)).step (.advance s.calls.length) =
      some (mid (.found s.clock)) := by
    rw [hmid]
    simp only [advanceComplete, hfind, mid, withCall_setCall]
  have hlocked : (mid (.found s.clock)).step (.advance s.calls.length) =
      some (mid (.locked s.clock r)) := by
    have hunlocked : (mid (.found s.clock)).lockedBySome r.eventId = false := by
      rw [withCall_lockedBySome, hfree]
      rfl
    rw [hmid]
    simp only [advanceComplete, hunlocked, hfind, Bool.false_eq_true, if_false]
    simp only [mid, withCall_setCall]
  have hcommit : (mid (.locked s.clock r)).step (.advance s.calls.length) =
      some (s.afterComplete r owner) := by
    rw [hmid]
    simp only [advanceComplete, (h.wellFormed hr).complete_ok howned, mid, withCall_setCall]
    rfl
  exact Machine.run_cons_eq_some.mpr ⟨mid (.begun s.clock), rfl, Machine.run_cons_eq_some.mpr
    ⟨_, hfound, Machine.run_cons_eq_some.mpr ⟨_, hlocked, Machine.run_cons_eq_some.mpr
      ⟨_, hcommit, rfl⟩⟩⟩⟩

end Database

end PulseStream
