import PulseStream.Lib.Progress
import PulseStream.Store.Admission

/-!
# The store never gets stuck

A call waits in two places only: an INSERT for an uncommitted row of its key or id, and a completion
for the lock on its row. The call it waits for holds what it needs and can always move, so there is
no deadlock (`advance_or_waits`, `WaitsFor.advances`). Every call has a bounded number of statements
and locks left, also a claim, whose snapshot has no more rows than there are and can still be
inserted (`work_decreases`). Together: however the open calls are scheduled, they all come to an end
(`calls_settle`).
-/

namespace PulseStream

open Machine

namespace Call

/-- The call has an open transaction. -/
def isRunning : Call → Bool
  | .admitEvent _ (.running _) => true
  | .claim _ (.running _) => true
  | .complete _ (.running _) => true
  | _ => false

/-- The call may still commit a new row. -/
def mayInsert : Call → Bool
  | .admitEvent _ (.running (.begun _)) => true
  | .admitEvent _ (.running (.inserted _)) => true
  | _ => false

/-- How many more times the call can advance, when no snapshot has more than `rows` rows. -/
def remaining (rows : ℕ) : Call → ℕ
  | .admitEvent _ (.running (.begun _)) => 3
  | .admitEvent _ (.running .taken) => 2
  | .admitEvent _ (.running (.inserted _)) => 1
  | .admitEvent _ (.running (.resolved _)) => 1
  | .claim _ (.running (.begun _)) => rows + 2
  | .claim _ (.running (.scanning _ rest _)) => rest.length + 1
  | .complete _ (.running (.begun _)) => 3
  | .complete _ (.running (.found _)) => 2
  | .complete _ (.running (.locked _ _)) => 1
  | .complete _ (.running .unmatched) => 1
  | _ => 0

theorem remaining_mono {m n : ℕ} (h : m ≤ n) (call : Call) :
    call.remaining m ≤ call.remaining n := by
  unfold remaining
  split <;> omega

theorem remaining_pos {call : Call} (h : call.isRunning = true) (rows : ℕ) :
    0 < call.remaining rows := by
  unfold isRunning at h
  split at h
  · rename_i stage
    cases stage <;> simp [remaining]
  · rename_i stage
    cases stage <;> simp [remaining]
  · rename_i stage
    cases stage <;> simp [remaining]
  · cases h

/-- The candidates that a claim has not looked at. -/
def scans : Call → ℕ
  | .claim _ (.running (.scanning _ rest _)) => rest.length
  | _ => 0

theorem start_scans (now : Timestamp) (req : Request) : (req.start now).scans = 0 := by
  cases req with
  | claim args =>
    simp only [Request.start]
    split_ifs <;> rfl
  | _ => rfl

theorem remaining_le (rows : ℕ) (call : Call) : call.remaining rows ≤ max rows call.scans + 3 := by
  unfold remaining
  split <;> simp only [scans] <;> omega

theorem signal_ends {call call' : Call} {sig : Signal} (h : call.signal sig = some call') :
    call'.scans = 0 ∧ call'.mayInsert = false ∧ ∀ rows, call'.remaining rows = 0 := by
  cases call with
  | admitEvent args p | claim args p | complete args p =>
    obtain ⟨p', hp, rfl⟩ := Option.map_eq_some_iff.mp h
    cases sig <;> cases p <;> simp only [Progress.signal, Option.some.injEq, reduceCtorEq] at hp <;>
      subst hp <;> exact ⟨rfl, rfl, fun _ => rfl⟩

end Call

namespace Database

variable {s s' : Database} {c : ℕ} {call call' : Call} {events : List Row} {ws : List Write}

/-! ## Waiting -/

/-- What call `c` needs is held by call `d`. -/
def WaitsFor (s : Database) (c d : ℕ) : Prop :=
  (∃ args now row, s.calls[c]? = some (.admitEvent args (.running (.begun now))) ∧
    ∃ holder : Call, s.calls[d]? = some holder ∧ holder.insertedRow = some row ∧
      (row.scope = args.scope ∨ row.eventId = args.eventId)) ∨
  (∃ args now, s.calls[c]? = some (.complete args (.running (.found now))) ∧
    ∃ holder : Call, s.calls[d]? = some holder ∧ holder.locks args.id = true)

theorem advance_spec (h : s.step (.advance c) = some s') :
    ∃ call call' events ws, s.calls[c]? = some call ∧ call.isRunning = true ∧
      Transition s c call call' events ws ∧
      s' = { s with events := events, calls := s.calls.set c call', log := s.log ++ ws } := by
  have hrunning : ∃ call : Call, s.calls[c]? = some call ∧ call.isRunning = true := by
    simp only [step, advance] at h
    split at h
    · rename_i hc
      exact ⟨_, hc, rfl⟩
    · rename_i hc
      exact ⟨_, hc, rfl⟩
    · rename_i hc
      exact ⟨_, hc, rfl⟩
    · cases h
  obtain ⟨call, hc, hrun⟩ := hrunning
  cases step_spec h with
  | call hi ht ha =>
    obtain rfl := Option.some.inj ha
    obtain rfl := Option.some.inj (hc.symm.trans hi)
    exact ⟨call, _, _, _, hc, hrun, ht, rfl⟩

/-- A claim never waits: it passes over locked rows. -/
theorem claim_advances {args : ClaimArgs} {stage : ClaimStage}
    (hc : s.calls[c]? = some (.claim args (.running stage))) :
    ∃ s', s.step (.advance c) = some s' := by
  simp only [step, advance, hc]
  cases stage with
  | begun now => exact ⟨_, rfl⟩
  | scanning now rest picked =>
    cases rest with
    | nil => exact ⟨_, rfl⟩
    | cons id rest =>
      simp only [advanceClaim]
      split_ifs <;> exact ⟨_, rfl⟩

theorem inserted_advances {args : AdmitArgs} {row : Row}
    (hc : s.calls[c]? = some (.admitEvent args (.running (.inserted row)))) :
    ∃ s', s.step (.advance c) = some s' := by
  simp only [step, advance, hc]
  exact ⟨_, rfl⟩

theorem locked_advances {args : CompleteArgs} {now : Timestamp} {r : Row}
    (hc : s.calls[c]? = some (.complete args (.running (.locked now r)))) :
    ∃ s', s.step (.advance c) = some s' := by
  simp only [step, advance, hc, advanceComplete]
  split <;> exact ⟨_, rfl⟩

theorem WaitsFor.advances {d : ℕ} (h : s.WaitsFor c d) : ∃ s', s.step (.advance d) = some s' := by
  rcases h with ⟨args, now, row, -, holder, hd, hrow, -⟩ | ⟨args, now, -, holder, hd, hlock⟩
  · unfold Call.insertedRow at hrow
    split at hrow
    · exact inserted_advances hd
    · cases hrow
  · obtain ⟨r, hr, -⟩ := List.any_eq_true.mp hlock
    unfold Call.lockedRows at hr
    split at hr
    · exact claim_advances hd
    · exact locked_advances hd
    · cases hr

theorem insert_or_waits {args : AdmitArgs} {now : Timestamp}
    (hc : s.calls[c]? = some (.admitEvent args (.running (.begun now)))) :
    (∃ s', s.step (.advance c) = some s') ∨ ∃ d, s.WaitsFor c d := by
  -- the uncommitted row belongs to a call
  have hwait : ∀ row ∈ s.uncommitted, row.scope = args.scope ∨ row.eventId = args.eventId →
      ∃ d, s.WaitsFor c d := by
    intro row hrow hkey
    obtain ⟨d, holder, hd, hins⟩ := mem_uncommitted.mp hrow
    exact ⟨d, .inl ⟨args, now, row, hc, holder, hd, hins, hkey⟩⟩
  simp only [step, advance, hc, advanceAdmit]
  cases hrow : args.checkedRow now with
  | error e => exact .inl ⟨_, rfl⟩
  | ok row =>
    obtain ⟨hscope, hid⟩ := AdmitArgs.checkedRow_key hrow
    simp only [insertEvent]
    split_ifs with h₁ h₂ h₃ h₄
    · obtain ⟨r, hr, hkey⟩ := List.any_eq_true.mp h₁
      exact .inr (hwait r hr (.inl ((beq_iff_eq.mp hkey).trans hscope)))
    · exact .inl ⟨_, rfl⟩
    · obtain ⟨r, hr, hkey⟩ := List.any_eq_true.mp h₃
      exact .inr (hwait r hr (.inr ((beq_iff_eq.mp hkey).trans hid)))
    · exact .inl ⟨_, rfl⟩
    · exact .inl ⟨_, rfl⟩

theorem complete_or_waits {args : CompleteArgs} {stage : CompleteStage}
    (hc : s.calls[c]? = some (.complete args (.running stage))) :
    (∃ s', s.step (.advance c) = some s') ∨ ∃ d, s.WaitsFor c d := by
  cases stage with
  | begun now =>
    refine .inl ?_
    simp only [step, advance, hc, advanceComplete]
    split <;> exact ⟨_, rfl⟩
  | found now =>
    cases hlock : s.lockedBySome args.id with
    | true =>
      obtain ⟨holder, hmem, hlocks⟩ := List.any_eq_true.mp hlock
      obtain ⟨d, hd⟩ := List.mem_iff_getElem?.mp hmem
      exact .inr ⟨d, .inr ⟨args, now, hc, holder, hd, hlocks⟩⟩
    | false =>
      refine .inl ?_
      simp only [step, advance, hc, advanceComplete, hlock, Bool.false_eq_true, if_false]
      split <;> exact ⟨_, rfl⟩
  | locked now r => exact .inl (locked_advances hc)
  | unmatched =>
    refine .inl ?_
    simp only [step, advance, hc, advanceComplete]
    exact ⟨_, rfl⟩

/-- **No deadlock.** A running call can move, or waits for a call. -/
theorem advance_or_waits (hc : s.calls[c]? = some call) (hrun : call.isRunning = true) :
    (∃ s', s.step (.advance c) = some s') ∨ ∃ d, s.WaitsFor c d := by
  unfold Call.isRunning at hrun
  split at hrun
  · rename_i args stage
    cases stage with
    | begun now => exact insert_or_waits hc
    | inserted row => exact .inl (inserted_advances hc)
    | taken | resolved outcome =>
      refine .inl ?_
      simp only [step, advance, hc]
      exact ⟨_, rfl⟩
  · exact .inl (claim_advances hc)
  · exact complete_or_waits hc
  · cases hrun

/-! ## The work that is left -/

/-- No snapshot of the open calls has more rows than this. -/
def rowBound (s : Database) : ℕ := s.events.length + s.calls.countP Call.mayInsert

/-- A bound on the number of times that the open calls can advance. -/
def work (s : Database) : ℕ := (s.calls.map (Call.remaining s.rowBound)).sum

theorem candidates_length_le (s : Database) (now : Timestamp) :
    (s.candidates now).length ≤ s.events.length := by
  unfold candidates candidateRows
  rw [List.length_map, (KeySort.keySort_perm _ _).length_eq]
  exact List.length_filter_le _ _

/-- A transition uses up some of what its call had left, and inserts only what it could insert. -/
theorem Transition.spends (h : Transition s c call call' events ws) (hrun : call.isRunning = true)
    {rows : ℕ} (hrows : s.events.length ≤ rows) :
    call'.remaining rows < call.remaining rows ∧
      events.length + (if call'.mayInsert then 1 else 0) ≤
        s.events.length + (if call.mayInsert then 1 else 0) := by
  cases h with
  | move h =>
    cases h with
    | signal hsig =>
      obtain ⟨-, hins, hrem⟩ := Call.signal_ends hsig
      rw [hrem, hins]
      exact ⟨Call.remaining_pos hrun rows, by simp⟩
    | @snapshot args now =>
      have hle := (s.candidates_length_le now).trans hrows
      refine ⟨?_, by simp [Call.mayInsert]⟩
      simp only [Call.remaining]
      omega
    | _ => simp [Call.remaining, Call.mayInsert]
  | insert => simp [Call.remaining, Call.mayInsert]
  | claim hdone hroom => simp [Call.remaining, Call.mayInsert, Table.put]
  | complete => simp [Call.remaining, Call.mayInsert, Table.put]

theorem Transition.length_le (h : Transition s c call call' events ws) :
    s.events.length ≤ events.length := by
  cases h <;> simp [Table.put]

theorem Transition.scans (h : Transition s c call call' events ws)
    (hle : call.scans ≤ s.events.length) : call'.scans ≤ events.length := by
  cases h with
  | move h =>
    cases h with
    | signal hsig =>
      rw [(Call.signal_ends hsig).1]
      exact Nat.zero_le _
    | snapshot => exact s.candidates_length_le _
    | skip | pick => exact (Nat.le_succ _).trans hle
    | _ => exact Nat.zero_le _
  | _ => exact Nat.zero_le _

theorem rowBound_antitone (h : s.step (.advance c) = some s') : s'.rowBound ≤ s.rowBound := by
  obtain ⟨call, call', events, ws, hc, hrun, ht, rfl⟩ := advance_spec h
  have hspent := (ht.spends hrun le_rfl).2
  have hsum : ∀ f : Call → ℕ,
      ((s.calls.set c call').map f).sum + f call = (s.calls.map f).sum + f call' :=
    fun f => Table.sum_map_set hc
  specialize hsum fun call => if call.mayInsert then 1 else 0
  simp only [rowBound, Table.countP_eq_sum]
  omega

theorem work_decreases (h : s.step (.advance c) = some s') : s'.work < s.work := by
  have hbound := rowBound_antitone h
  obtain ⟨call, call', events, ws, hc, hrun, ht, rfl⟩ := advance_spec h
  have hrows : s.events.length ≤ s.rowBound := Nat.le_add_right _ _
  have hspent := (ht.spends hrun hrows).1
  have hsum : ((s.calls.set c call').map (Call.remaining s.rowBound)).sum +
      call.remaining s.rowBound = s.work + call'.remaining s.rowBound := Table.sum_map_set hc
  calc ((s.calls.set c call').map (Call.remaining _)).sum
      ≤ ((s.calls.set c call').map (Call.remaining s.rowBound)).sum :=
        List.sum_le_sum fun b _ => b.remaining_mono hbound
    _ < s.work := by omega

/-! ## All calls come to an end -/

/-- The machine of the open calls alone. -/
def advanceOnly (s : Database) (c : ℕ) : Option Database := s.step (.advance c)

/-- No call has an open transaction. -/
def Settled (s : Database) : Prop := ∀ call ∈ s.calls, call.isRunning = false

theorem not_settled (h : ¬ s.Settled) :
    ∃ (c : ℕ) (call : Call), s.calls[c]? = some call ∧ call.isRunning = true := by
  unfold Settled at h
  push Not at h
  obtain ⟨call, hmem, hrun⟩ := h
  obtain ⟨c, hc⟩ := List.mem_iff_getElem?.mp hmem
  exact ⟨c, call, hc, by simpa using hrun⟩

/-- The call that moves next is the one that runs, or the one it waits for. -/
theorem mover (hc : s.calls[c]? = some call) (hrun : call.isRunning = true) :
    ∃ d, (d = c ∨ s.WaitsFor c d) ∧ ∃ s', s.step (.advance d) = some s' := by
  rcases advance_or_waits hc hrun with hmoves | ⟨d, hwaits⟩
  · exact ⟨c, .inl rfl, hmoves⟩
  · exact ⟨d, .inr hwaits, hwaits.advances⟩

theorem converges : Converges advanceOnly (fun _ => True) Settled work where
  keeps _ _ _ _ _ := trivial
  decreases _ _ _ _ h := work_decreases h
  progress t _ h := by
    obtain ⟨c, call, hc, hrun⟩ := not_settled h
    obtain ⟨d, -, hmoves⟩ := mover hc hrun
    exact ⟨d, hmoves⟩

theorem run_advance (s : Database) (cs : List ℕ) :
    run advanceOnly s cs = run step s (cs.map .advance) := by
  induction cs generalizing s with
  | nil => rfl
  | cons c cs ih =>
    simp only [run, List.map_cons, advanceOnly]
    exact congrArg _ (funext fun t => ih t)

theorem Reachable.scans_le (h : s.Reachable) (hc : s.calls[c]? = some call) :
    call.scans ≤ s.events.length := by
  revert c call
  refine h.invariant
    (P := fun t => ∀ {c : ℕ} {call : Call}, t.calls[c]? = some call → call.scans ≤ t.events.length)
    ?_ ?_
  · intro clock c call hc
    simp [empty] at hc
  · intro t a t' _ hP hstep c call hc
    cases hstep with
    | tick now => exact hP hc
    | begin req =>
      rcases calls_append hc with ⟨-, rfl⟩ | ⟨-, hc⟩
      · rw [Call.start_scans]
        exact Nat.zero_le _
      · exact hP hc
    | call hi ht =>
      rcases calls_setCall hc with ⟨rfl, rfl⟩ | ⟨-, hc⟩
      · exact ht.scans (hP hi)
      · exact (hP hc).trans ht.length_le

theorem Reachable.work_le (h : s.Reachable) :
    s.work ≤ s.calls.length * (s.events.length + s.calls.length + 3) := by
  have hcount : s.calls.countP Call.mayInsert ≤ s.calls.length := List.countP_le_length
  have hone : ∀ n ∈ s.calls.map (Call.remaining s.rowBound),
      n ≤ s.events.length + s.calls.length + 3 := by
    intro n hn
    obtain ⟨call, hmem, rfl⟩ := List.mem_map.mp hn
    obtain ⟨c, hc⟩ := List.mem_iff_getElem?.mp hmem
    have hscans := h.scans_le hc
    have hle := call.remaining_le s.rowBound
    simp only [rowBound] at hle ⊢
    omega
  have hsum := List.sum_le_card_nsmul _ _ hone
  simpa [work] using hsum

/-- **The store never gets stuck.** A running call can move, or the call it waits for can; open
calls have a bounded number of steps left, however they are scheduled; and wherever they have come
to, some schedule brings them all to their end. -/
theorem calls_settle (h : s.Reachable) :
    (∀ (c : ℕ) (call : Call), s.calls[c]? = some call → call.isRunning = true →
      ∃ d, (d = c ∨ s.WaitsFor c d) ∧ ∃ s', s.step (.advance d) = some s') ∧
    (∀ (cs : List ℕ) s', run step s (cs.map .advance) = some s' →
      cs.length ≤ s.calls.length * (s.events.length + s.calls.length + 3) ∧
      ∃ (ds : List ℕ) (s'' : Database), run step s' (ds.map .advance) = some s'' ∧
        ∀ call ∈ s''.calls, call.isRunning = false) := by
  refine ⟨fun c call hc hrun => mover hc hrun, fun cs s' hrun => ⟨?_, ?_⟩⟩
  · have hlength := converges.length_le trivial ((run_advance s cs).trans hrun)
    have hwork := h.work_le
    omega
  · obtain ⟨s'', ⟨ds, hds⟩, -, hsettled⟩ := converges.finishes (s := s') trivial
    exact ⟨ds, s'', (run_advance s' ds).symm.trans hds, hsettled⟩

/-- The second request of `race` waits for the first one. -/
theorem calls_settle_race :
    ∃ s, run step (empty 0) (race.take 4) = some s ∧ (∃ d, s.WaitsFor 1 d) ∧
      ∃ (ds : List ℕ) (s'' : Database), run step s (ds.map .advance) = some s'' ∧
        ∀ call ∈ s''.calls, call.isRunning = false := by
  have hrun : (run step (empty 0) (race.take 4)).map (fun s =>
      ((s.calls[1]?).map Call.isRunning, (s.step (.advance 1)).isNone)) =
        some (some true, true) := by decide +kernel
  obtain ⟨s, hs, hobs⟩ := Option.map_eq_some_iff.mp hrun
  simp only [Prod.mk.injEq, Option.isNone_iff_eq_none] at hobs
  obtain ⟨hcall, hblocked⟩ := hobs
  obtain ⟨call, hc, hrunning⟩ := Option.map_eq_some_iff.mp hcall
  obtain ⟨hmoves, hends⟩ := calls_settle ⟨0, _, hs⟩
  refine ⟨s, hs, ?_, (hends [] s rfl).2⟩
  obtain ⟨d, rfl | hwaits, s', hd⟩ := hmoves 1 call hc hrunning
  · rw [hblocked] at hd
    cases hd
  · exact ⟨d, hwaits⟩

end Database

end PulseStream
