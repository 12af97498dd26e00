import PulseStream.Store.Invariant
import PulseStream.Store.Trail

/-!
# The log against the table and the calls

`Reachable.traced`: however calls interleave, the writes to one row form a `Trail` that ends in the
committed row, so the concurrent store refines the sequential life of each event.
`Reachable.accounted`: every write belongs to the call that made it, and what a call answers is
what it wrote.
-/

namespace PulseStream

/-! ## Requests and their writes -/

/-- What was asked for, without the progress made. -/
def Call.request : Call → Request
  | .admitEvent args _ => .admitEvent args
  | .claim args _ => .claim args
  | .complete args _ => .complete args

/-- The write is one that the request makes. -/
def Request.Authored (w : Write) : Request → Prop
  | .admitEvent args => w.op = .insert ∧ ∃ now, args.checkedRow now = .ok w.row
  | .claim args => ∃ now previous, w.op = .claim args.owner now args.lease previous
  | .complete args => (∃ now, w.op = .complete args.owner now) ∧ w.row.eventId = args.id

/-- An open call has written nothing, and an answer is right about what was written. -/
def Progress.Accounts {W R : Type} (written : List Write) (opened : W → Prop)
    (answered : R → Prop) : Progress W R → Prop
  | .running w => written = [] ∧ opened w
  | .committed r => answered r
  | .returned r => answered r
  | .failed _ => True
  | .dropped => True

theorem Progress.Accounts.signal {W R : Type} {written : List Write} {opened : W → Prop}
    {answered : R → Prop} {sig : Signal} {p p' : Progress W R}
    (h : p.Accounts written opened answered) (hp : p.signal sig = some p') :
    p'.Accounts written opened answered := by
  rcases Progress.signal_some hp with ⟨_, rfl⟩ | rfl | ⟨r, rfl, rfl⟩
  · trivial
  · trivial
  · exact h

/-- The writes of call `c`, as its progress accounts for them. -/
def Call.Accounts (c : ℕ) (written : List Write) : Call → Prop
  | .admitEvent _ p => p.Accounts written (fun stage => ∀ id, stage ≠ .resolved (.created id))
      fun
      | .created id => ∃ row, written = [⟨c, .insert, row⟩] ∧ row.eventId = id
      | .replayed _ => written = []
      | .conflict => written = []
  | .claim args p => p.Accounts written (fun _ => True) fun grants =>
      (grants.map (·.row.eventId)).Nodup ∧ ∃ now, written =
        grants.map fun g => ⟨c, .claim args.owner now args.lease g.previous, g.row⟩
  | .complete args p => p.Accounts written (fun _ => True)
      fun
      | true => ∃ now row, written = [⟨c, .complete args.owner now, row⟩]
      | false => written = []

namespace Database

variable {s s' : Database} {c : ℕ} {call call' : Call} {events : List Row} {ws : List Write}

/-- The committed versions of one row. -/
def history (s : Database) (id : EventId) : List Write :=
  s.log.filter fun w => w.row.eventId = id

/-- The row versions one call has committed. -/
def written (s : Database) (c : ℕ) : List Write := s.log.filter fun w => w.call = c

theorem mem_history {id : EventId} {w : Write} :
    w ∈ s.history id ↔ w ∈ s.log ∧ w.row.eventId = id := by
  simp [history]

theorem mem_written {w : Write} : w ∈ s.written c ↔ w ∈ s.log ∧ w.call = c := by
  simp [written]

/-! ## Trails -/

/-- Every row is the end of its trail, and the log is about rows of the table. -/
structure Traced (s : Database) : Prop where
  trail : ∀ r ∈ s.events, Trail (s.history r.eventId) r
  known : ∀ w ∈ s.log, ∃ r ∈ s.events, r.eventId = w.row.eventId

theorem Traced.history_nil (ht : s.Traced) {id : EventId} (h : ∀ r ∈ s.events, r.eventId ≠ id) :
    s.history id = [] := by
  refine List.filter_eq_nil_iff.mpr fun w hw hid => ?_
  obtain ⟨r, hr, hrid⟩ := ht.known w hw
  exact h r hr (hrid.trans (by simpa using hid))

section Effect

variable (hs : s.Sound) (ht : s.Traced) (hc : s.calls[c]? = some call)
  (h : Transition s c call call' events ws)

include hs ht hc h

theorem Transition.trail {r' : Row} (hr' : r' ∈ events) :
    Trail (s.history r'.eventId ++ ws.filter fun w => w.row.eventId = r'.eventId) r' := by
  have hv := hs.calls c call hc
  cases h with
  | move h =>
    rw [List.filter_nil, List.append_nil]
    exact ht.trail r' hr'
  | @insert args row =>
    have hfresh := hv.fresh row rfl
    rcases List.mem_append.mp hr' with hr' | hr'
    · rw [List.filter_cons_of_neg (by simpa using (hfresh r' hr').2.symm), List.filter_nil,
        List.append_nil]
      exact ht.trail r' hr'
    · obtain rfl := List.mem_singleton.mp hr'
      obtain ⟨now, hrow⟩ := hv.coherent
      rw [ht.history_nil fun r hr => (hfresh r hr).2, List.filter_cons_of_pos (by simp)]
      exact .insert hrow
  | @claim args now rest picked hdone hroom =>
    obtain ⟨r, hr, hid, hnew | ⟨rfl, hold⟩⟩ := Table.mem_put hr'
    · obtain ⟨p, hp, rfl⟩ := List.mem_map.mp hnew
      have hfilter : (picked.map (args.write c now)).filter (fun w => w.row.eventId = p.eventId) =
          [args.write c now p] := by
        rw [List.filter_map]
        exact congrArg (List.map (args.write c now))
          (Table.filter_key (hv.coherent.2.sublist (List.sublist_append_left _ _)) hp)
      rw [Row.claimed_content, hfilter]
      exact .claim c (ht.trail p (hv.locked p hp)) (hv.coherent.1 p hp) (hroom p hp)
    · have hfilter : (picked.map (args.write c now)).filter
          (fun w => w.row.eventId = r'.eventId) = [] := by
        refine List.filter_eq_nil_iff.mpr fun w hw => ?_
        obtain ⟨p, hp, rfl⟩ := List.mem_map.mp hw
        exact fun hid => hold _ (List.mem_map_of_mem hp) (of_decide_eq_true hid)
      rw [hfilter, List.append_nil]
      exact ht.trail r' hr
  | @complete args now l =>
    have hl := hv.locked l (List.mem_singleton.mpr rfl)
    obtain ⟨r, hr, hid, hnew | ⟨rfl, hold⟩⟩ := Table.mem_put hr'
    · obtain rfl := List.mem_singleton.mp hnew
      rw [List.filter_cons_of_pos (by simp)]
      exact .complete c (ht.trail l hl) hv.coherent.2
    · have hne := hold (l.completed now) (List.mem_singleton.mpr rfl)
      rw [List.filter_cons_of_neg (by exact fun hid => hne (of_decide_eq_true hid)),
        List.filter_nil, List.append_nil]
      exact ht.trail r' hr

omit ht in
theorem Transition.known : ∀ w ∈ ws, ∃ r ∈ events, r.eventId = w.row.eventId := by
  have hv := hs.calls c call hc
  have hkeep : ∀ r ∈ s.events, ∃ r' ∈ events, r'.eventId = r.eventId := by
    intro r hr
    obtain ⟨r', hr', hcontent⟩ := h.persists hs hc hr
    exact ⟨r', hr', congrArg Content.eventId hcontent⟩
  intro w hw
  cases h with
  | move h => cases hw
  | @insert args row =>
    obtain rfl := List.mem_singleton.mp hw
    exact ⟨row, by simp, rfl⟩
  | claim hdone hroom =>
    obtain ⟨p, hp, rfl⟩ := List.mem_map.mp hw
    exact hkeep p (hv.locked p hp)
  | @complete args now l =>
    obtain rfl := List.mem_singleton.mp hw
    exact hkeep l (hv.locked l (List.mem_singleton.mpr rfl))

end Effect

theorem traced_step {a : Act} (h : Steps s a s') (hs : s.Sound) (ht : s.Traced) : s'.Traced := by
  cases h with
  | tick now => exact ⟨ht.trail, ht.known⟩
  | begin req => exact ⟨ht.trail, ht.known⟩
  | call hc h =>
    refine ⟨fun r' hr' => ?_, fun w hw => ?_⟩
    · unfold history
      rw [List.filter_append]
      exact h.trail hs ht hc hr'
    · rcases List.mem_append.mp hw with hw | hw
      · obtain ⟨r, hr, hid⟩ := ht.known w hw
        obtain ⟨r', hr', hcontent⟩ := h.persists hs hc hr
        exact ⟨r', hr', (congrArg Content.eventId hcontent).trans hid⟩
      · exact h.known hs hc w hw

/-- **Refinement.** Every row is the end of a sequential trail, made of the writes to it. -/
theorem Reachable.traced (h : s.Reachable) : s.Traced := by
  refine h.invariant ?_ fun t a t' ht htr hstep => traced_step hstep ht.sound htr
  intro clock
  exact ⟨fun r hr => absurd hr (by simp [empty]), fun w hw => absurd hw (by simp [empty])⟩

/-! ## Calls and their writes -/

theorem Transition.request (h : Transition s c call call' events ws) :
    call'.request = call.request := by
  cases h with
  | move h =>
    cases h with
    | signal h =>
      rcases Call.signal_some h with ⟨_, _, _, rfl, rfl, _⟩ | ⟨_, _, _, rfl, rfl, _⟩ |
        ⟨_, _, _, rfl, rfl, _⟩ <;> rfl
    | _ => rfl
  | _ => rfl

theorem Transition.call_eq (h : Transition s c call call' events ws) : ∀ w ∈ ws, w.call = c := by
  intro w hw
  cases h with
  | move h => cases hw
  | claim hdone hroom =>
    obtain ⟨p, hp, rfl⟩ := List.mem_map.mp hw
    rfl
  | _ =>
    obtain rfl := List.mem_singleton.mp hw
    rfl

theorem Transition.authored (h : Transition s c call call' events ws) (hv : call.Coherent) :
    ∀ w ∈ ws, call.request.Authored w := by
  intro w hw
  cases h with
  | move h => cases hw
  | insert =>
    obtain rfl := List.mem_singleton.mp hw
    exact ⟨rfl, hv⟩
  | claim hdone hroom =>
    obtain ⟨p, hp, rfl⟩ := List.mem_map.mp hw
    exact ⟨_, _, rfl⟩
  | complete =>
    obtain rfl := List.mem_singleton.mp hw
    exact ⟨⟨_, rfl⟩, hv.1⟩

theorem Transition.accounts (h : Transition s c call call' events ws) (hv : call.Coherent)
    {old : List Write} (ha : call.Accounts c old) : call'.Accounts c (old ++ ws) := by
  cases h with
  | move h =>
    rw [List.append_nil]
    cases h with
    | settled =>
      obtain ⟨rfl, hnot⟩ := ha
      rename_i outcome
      cases outcome with
      | created id => exact absurd rfl (hnot id)
      | replayed id => rfl
      | conflict => rfl
    | nothing => exact ha.1
    | signal h =>
      rcases Call.signal_some h with ⟨_, _, _, rfl, rfl, hp⟩ | ⟨_, _, _, rfl, rfl, hp⟩ |
        ⟨_, _, _, rfl, rfl, hp⟩ <;> exact ha.signal hp
    | refused h | duplicateId hr hid | missing hrows | claimFailed h | completeFailed h => trivial
    | _ => exact ⟨ha.1, by simp⟩
  | insert =>
    obtain ⟨rfl, -⟩ := ha
    exact ⟨_, rfl, rfl⟩
  | claim hdone hroom =>
    obtain ⟨rfl, -⟩ := ha
    refine ⟨?_, _, by rw [List.map_map]; rfl⟩
    rw [List.map_map]
    exact hv.2.sublist (List.sublist_append_left _ _)
  | complete =>
    obtain ⟨rfl, -⟩ := ha
    exact ⟨_, _, rfl⟩

/-- Every write has an author, and every call accounts for its writes. -/
structure Accounted (s : Database) : Prop where
  authors : ∀ w ∈ s.log, ∃ call : Call, s.calls[w.call]? = some call ∧ call.request.Authored w
  accounts : ∀ (c : ℕ) (call : Call), s.calls[c]? = some call → call.Accounts c (s.written c)

theorem start_accounts (now : Timestamp) (req : Request) :
    (req.start now).Accounts c [] := by
  cases req with
  | admitEvent args => exact ⟨rfl, by simp⟩
  | claim args =>
    simp only [Request.start]
    split_ifs
    · exact ⟨List.nodup_nil, now, rfl⟩
    · exact ⟨rfl, trivial⟩
  | complete args => exact ⟨rfl, trivial⟩

theorem accounted_step {a : Act} (h : Steps s a s') (hs : s.Sound) (ha : s.Accounted) :
    s'.Accounted := by
  cases h with
  | tick now => exact ⟨ha.authors, ha.accounts⟩
  | begin req =>
    refine ⟨fun w hw => ?_, fun i b hi => ?_⟩
    · obtain ⟨call, hcall, hauth⟩ := ha.authors w hw
      exact ⟨call, List.getElem?_append_left (List.getElem?_eq_some_iff.mp hcall).1 ▸ hcall, hauth⟩
    · rcases calls_append hi with ⟨rfl, rfl⟩ | ⟨-, hi'⟩
      · -- nobody has written under the new number
        have hnone : s.written s.calls.length = [] := by
          refine List.filter_eq_nil_iff.mpr fun w hw hcall => ?_
          obtain ⟨call, hget, -⟩ := ha.authors w hw
          have hlt := (List.getElem?_eq_some_iff.mp hget).1
          simp only [decide_eq_true_eq] at hcall
          omega
        show Call.Accounts _ (s.written s.calls.length) _
        rw [hnone]
        exact start_accounts _ _
      · exact ha.accounts i b hi'
  | @call _ c call call' events ws hc h =>
    have hlt := (List.getElem?_eq_some_iff.mp hc).1
    refine ⟨fun w hw => ?_, fun i b hi => ?_⟩
    · rcases List.mem_append.mp hw with hw | hw
      · obtain ⟨b, hb, hauth⟩ := ha.authors w hw
        by_cases hwc : w.call = c
        · obtain rfl := Option.some.inj (hc.symm.trans (hwc ▸ hb))
          refine ⟨call', ?_, h.request ▸ hauth⟩
          rw [hwc]
          exact List.getElem?_set_self hlt
        · exact ⟨b, (List.getElem?_set_ne (Ne.symm hwc)).trans hb, hauth⟩
      · rw [h.call_eq w hw]
        exact ⟨call', List.getElem?_set_self hlt,
          h.request ▸ h.authored (hs.calls c call hc).coherent w hw⟩
    · have hsplit : ∀ i, (s.log ++ ws).filter (fun w => w.call = i) =
          s.written i ++ ws.filter fun w => w.call = i := fun i => List.filter_append ..
      show b.Accounts i ((s.log ++ ws).filter fun w => w.call = i)
      rw [hsplit]
      rcases calls_setCall hi with ⟨rfl, rfl⟩ | ⟨hic, hi'⟩
      · rw [List.filter_eq_self.mpr (by simpa using h.call_eq)]
        exact h.accounts (hs.calls i call hc).coherent (ha.accounts i call hc)
      · rw [List.filter_eq_nil_iff.mpr, List.append_nil]
        · exact ha.accounts i b hi'
        · intro w hw
          rw [h.call_eq w hw]
          simpa using Ne.symm hic

theorem Reachable.accounted (h : s.Reachable) : s.Accounted := by
  refine h.invariant ?_ fun t a t' ht hacc hstep => accounted_step hstep ht.sound hacc
  intro clock
  exact ⟨fun w hw => absurd hw (by simp [empty]), fun i call hi => absurd hi (by simp [empty])⟩

end Database

end PulseStream
