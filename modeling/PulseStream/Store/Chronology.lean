import PulseStream.Store.Completion

/-!
# Times in the store

`now()` is the time at which a transaction started, not the time at which it commits. On a clock
that does not go back, an event is accepted before the present (`Dated.rows`), and it is processed
after it was accepted if completions are begun only for events that are there: `dated_step`.
-/

namespace PulseStream

/-- The time that the completion will write. -/
def CompleteStage.now : CompleteStage → Option Timestamp
  | .begun now => some now
  | .found now => some now
  | .locked now _ => some now
  | .unmatched => none

/-- The times of a call in progress: an admission started in the past, and a completion started
after its event was accepted. -/
def Call.Dated (events : List Row) (clock : Timestamp) : Call → Prop
  | .admitEvent _ (.running (.begun now)) => now ≤ clock
  | .admitEvent _ (.running (.inserted row)) => row.acceptedAt ≤ clock ∧ row.processedAt = none
  | .complete args (.running stage) =>
    ∀ now ∈ stage.now, ∃ r ∈ events, r.eventId = args.id ∧ r.acceptedAt ≤ now
  | _ => True

theorem Call.Dated.mono {events events' : List Row} {clock clock' : Timestamp} {call : Call}
    (h : call.Dated events clock)
    (hkeep : ∀ r ∈ events, ∃ r' ∈ events', r'.toContent = r.toContent) (hle : clock ≤ clock') :
    call.Dated events' clock' := by
  unfold Dated at h ⊢
  split at h
  · exact h.trans hle
  · exact ⟨h.1.trans hle, h.2⟩
  · intro now hnow
    obtain ⟨r, hr, hid, hr'⟩ := h now hnow
    obtain ⟨r', hmem, hcontent⟩ := hkeep r hr
    exact ⟨r', hmem, hcontent ▸ hid, hcontent ▸ hr'⟩
  · trivial

namespace Database

variable {s s' : Database} {a : Act}

structure Dated (s : Database) : Prop where
  rows : ∀ r ∈ s.events, r.acceptedAt ≤ s.clock ∧ ∀ p ∈ r.processedAt, r.acceptedAt ≤ p
  calls : ∀ (c : ℕ) (call : Call), s.calls[c]? = some call → call.Dated s.events s.clock

theorem dated_empty (clock : Timestamp) : (empty clock).Dated :=
  ⟨fun r hr => (by cases hr), fun c call hc => (by simp [empty] at hc)⟩

section Transition

variable {c : ℕ} {call call' : Call} {events : List Row} {ws : List Write}

theorem Transition.dated_rows (h : Transition s c call call' events ws) (hs : s.Sound)
    (ht : s.Dated) (hc : s.calls[c]? = some call) {r : Row} (hr : r ∈ events) :
    r.acceptedAt ≤ s.clock ∧ ∀ p ∈ r.processedAt, r.acceptedAt ≤ p := by
  have hv := hs.calls c call hc
  have hcall := ht.calls c call hc
  cases h with
  | move h => exact ht.rows r hr
  | insert =>
    rcases List.mem_append.mp hr with hold | hnew
    · exact ht.rows r hold
    · obtain rfl := List.mem_singleton.mp hnew
      refine ⟨hcall.1, fun p hp => ?_⟩
      rw [hcall.2] at hp
      cases hp
  | claim hdone hroom =>
    obtain ⟨r₀, hr₀, -, hnew | ⟨rfl, -⟩⟩ := Table.mem_put hr
    · obtain ⟨q, hq, rfl⟩ := List.mem_map.mp hnew
      exact ht.rows q (hv.locked q hq)
    · exact ht.rows r hr₀
  | @complete args now q =>
    obtain ⟨r₀, hr₀, -, hnew | ⟨rfl, -⟩⟩ := Table.mem_put hr
    · -- the row that the completion has locked is the one it was begun for
      obtain rfl := List.mem_singleton.mp hnew
      have hq := hv.locked q (List.mem_singleton.mpr rfl)
      obtain ⟨q', hq', hid, hle⟩ := hcall now rfl
      obtain rfl := hs.eq_of_id hq hq' (hv.coherent.1.trans hid.symm)
      refine ⟨(ht.rows q hq).1, fun p hp => ?_⟩
      obtain rfl := Option.some.inj hp
      exact hle
    · exact ht.rows r hr₀

theorem Transition.dated_call (h : Transition s c call call' events ws)
    (hcall : call.Dated s.events s.clock) : call'.Dated events s.clock := by
  cases h with
  | move h =>
    cases h with
    | inserted hrow hopen hrows =>
      obtain ⟨-, -, payload, -, rfl⟩ := AdmitArgs.checkedRow_eq_ok.mp hrow
      exact ⟨hcall, rfl⟩
    | found hr hid howned => exact hcall
    | locked hr hid howned hfree => exact hcall
    | notFound | lost => exact fun now hnow => (by cases hnow)
    | signal h =>
      rcases Call.signal_some h with ⟨_, _, _, rfl, rfl, hp⟩ | ⟨_, _, _, rfl, rfl, hp⟩ |
        ⟨_, _, _, rfl, rfl, hp⟩ <;>
      rcases Progress.signal_some hp with ⟨_, rfl⟩ | rfl | ⟨_, rfl, rfl⟩ <;>
      trivial
    | _ => trivial
  | _ => trivial

end Transition

/-- Every step of the store keeps the times in order, if the clock does not go back and completions
are begun for events that are there. -/
theorem dated_step (h : Steps s a s') (hs : s.Sound) (ht : s.Dated)
    (htick : ∀ now, a = .tick now → s.clock ≤ now)
    (hbegin : ∀ args, a = .begin (.complete args) → ∃ r ∈ s.events, r.eventId = args.id) :
    s'.Dated := by
  cases h with
  | tick now =>
    have hle := htick now rfl
    refine ⟨fun r hr => ⟨(ht.rows r hr).1.trans hle, (ht.rows r hr).2⟩, fun c call hc => ?_⟩
    exact (ht.calls c call hc).mono (fun r hr => ⟨r, hr, rfl⟩) hle
  | begin req =>
    refine ⟨ht.rows, fun c call hc => ?_⟩
    rcases calls_append hc with ⟨-, rfl⟩ | ⟨-, hc⟩
    · cases req with
      | admitEvent args => exact le_refl s.clock
      | claim args =>
        simp only [Request.start]
        split_ifs <;> trivial
      | complete args =>
        rintro now hnow
        obtain rfl := Option.some.inj hnow
        obtain ⟨r, hr, hid⟩ := hbegin args rfl
        exact ⟨r, hr, hid, (ht.rows r hr).1⟩
    · exact ht.calls c call hc
  | call hi h =>
    refine ⟨fun r hr => h.dated_rows hs ht hi hr, fun c call hc => ?_⟩
    rcases calls_setCall hc with ⟨rfl, rfl⟩ | ⟨-, hc⟩
    · exact h.dated_call (ht.calls _ _ hi)
    · exact (ht.calls c call hc).mono (fun r hr => h.persists hs hi hr) le_rfl

end Database

end PulseStream
