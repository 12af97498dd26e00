import PulseStream.Lib.Refinement
import PulseStream.Store.Admission
import PulseStream.Store.Leases

/-!
# The store as an atomic queue

What the store is for, without rows, locks and transactions: a queue of events in which an
admission, a claim and a completion each happen at one moment (`EventQueue.Apply`). The concurrent
store is linearizable with respect to it (`linearizable`). The moment of a call that writes is its
commit; a replay or a conflict happens at the lookup, and a completion that finds nothing when it
looks at the row. A call whose answer is lost may have happened or not.
-/

namespace PulseStream

open Machine

/-! ## The queue -/

/-- Who may work on an event. -/
inductive Hold where
  | waiting
  | held (owner : WorkerId) (expiry : Timestamp)
  | done
  deriving DecidableEq

/-- A claim at `now` may take the event. -/
def Hold.Free (now : Timestamp) : Hold → Prop
  | .waiting => True
  | .held _ expiry => expiry ≤ now
  | .done => False

structure Entry where
  content : Content
  attempts : ℤ
  hold : Hold
  deriving DecidableEq

namespace Entry

def id (e : Entry) : EventId := e.content.eventId

/-- The event is given to a worker once more. -/
def deliver (args : ClaimArgs) (now : Timestamp) (e : Entry) : Entry :=
  { e with attempts := e.attempts + 1, hold := .held args.owner (now + args.lease) }

def finish (e : Entry) : Entry := { e with hold := .done }

end Entry

/-- The entry a claim hands out, and whether another worker had it before. -/
structure Delivery where
  entry : Entry
  again : Bool
  deriving DecidableEq

/-- An operation with its answer. -/
inductive Op where
  | admitEvent (args : AdmitArgs) (outcome : AdmitOutcome)
  | claim (args : ClaimArgs) (deliveries : List Delivery)
  | complete (args : CompleteArgs) (done : Bool)
  deriving DecidableEq

def Op.request : Op → Request
  | .admitEvent args _ => .admitEvent args
  | .claim args _ => .claim args
  | .complete args _ => .complete args

/-- What an admission came to. -/
def Op.outcome : Op → Option AdmitOutcome
  | .admitEvent _ outcome => some outcome
  | _ => none

/-- The events by their ids. -/
def EventQueue : Type := EventId → Option Entry

namespace EventQueue

def empty : EventQueue := fun _ => none

/-- The queue with new or changed entries. -/
def put (q : EventQueue) (es : List Entry) : EventQueue :=
  fun id => (Table.lookup Entry.id id es).or (q id)

theorem put_nil (q : EventQueue) : q.put [] = q := by
  funext id
  rfl

/-- What each operation may answer, and what it does. A claim is free to take fewer events than
there are. -/
inductive Apply (q : EventQueue) : Op → EventQueue → Prop
  | created {args : AdmitArgs} {payload : Jsonb} {now : Timestamp}
      (hpayload : jsonbIn args.payload = some payload) (hid : q args.eventId = none)
      (hscope : ∀ id e, q id = some e → e.content.scope ≠ args.scope) :
      Apply q (.admitEvent args (.created args.eventId))
        (q.put [⟨(args.row payload now).toContent, 0, .waiting⟩])
  | replayed {args : AdmitArgs} {id : EventId} {e : Entry} (he : q id = some e)
      (hscope : e.content.scope = args.scope)
      (hf : e.content.requestFingerprint = args.requestFingerprint) :
      Apply q (.admitEvent args (.replayed id)) q
  | conflict {args : AdmitArgs} {id : EventId} {e : Entry} (he : q id = some e)
      (hscope : e.content.scope = args.scope)
      (hf : e.content.requestFingerprint ≠ args.requestFingerprint) :
      Apply q (.admitEvent args .conflict) q
  | claim {args : ClaimArgs} (now : Timestamp) {ds : List Delivery}
      (hids : (ds.map (·.entry.id)).Nodup) (hlimit : ds.length ≤ args.limit)
      (hfree : ∀ d ∈ ds, ∃ e, q d.entry.id = some e ∧ e.hold.Free now ∧
        d = ⟨e.deliver args now, e.hold ≠ .waiting⟩) :
      Apply q (.claim args ds) (q.put (ds.map (·.entry)))
  | completed {args : CompleteArgs} {e : Entry} {expiry : Timestamp} (he : q args.id = some e)
      (hheld : e.hold = .held args.owner expiry) :
      Apply q (.complete args true) (q.put [e.finish])
  | ignored {args : CompleteArgs}
      (hheld : ∀ e, q args.id = some e → ∀ expiry, e.hold ≠ .held args.owner expiry) :
      Apply q (.complete args false) q

end EventQueue

/-! ## Rows as entries -/

namespace Row

def hold (r : Row) : Hold :=
  match r.status, r.processingOwner, r.leaseExpiresAt with
  | .processing, some owner, some expiry => .held owner expiry
  | .processed, _, _ => .done
  | _, _, _ => .waiting

def entry (r : Row) : Entry := ⟨r.toContent, r.deliveryAttempts, r.hold⟩

variable {r : Row} {owner : WorkerId} {now : Timestamp}

theorem entry_claimed (args : ClaimArgs) (now : Timestamp) (r : Row) :
    (r.claimed args.owner now args.lease).entry = r.entry.deliver args now := rfl

theorem WellFormed.hold_eq (h : r.WellFormed) :
    (r.status = .pending ∧ r.hold = .waiting) ∨
    (∃ owner expiry, r.status = .processing ∧ r.processingOwner = some owner ∧
      r.leaseExpiresAt = some expiry ∧ r.hold = .held owner expiry) ∨
    (r.status = .processed ∧ r.hold = .done) := by
  rcases h.checks.2 with ⟨hp, -⟩ | ⟨hp, howner, -, hlease, -⟩ | ⟨hp, -⟩
  · exact .inl ⟨hp, by simp [hold, hp]⟩
  · obtain ⟨o, ho⟩ := Option.ne_none_iff_exists'.mp howner
    obtain ⟨l, hl⟩ := Option.ne_none_iff_exists'.mp hlease
    exact .inr (.inl ⟨o, l, hp, ho, hl, by simp [hold, hp, ho, hl]⟩)
  · exact .inr (.inr ⟨hp, by simp [hold, hp]⟩)

theorem WellFormed.free (h : r.WellFormed) (hclaim : r.Claimable now) :
    r.hold.Free now ∧ (r.hold ≠ .waiting ↔ r.status = .processing) := by
  rcases h.hold_eq with ⟨hp, hw⟩ | ⟨o, l, hp, -, hl, hw⟩ | ⟨hp, -⟩
  · rw [hw, hp]
    exact ⟨trivial, by simp⟩
  · rw [hw, hp]
    exact ⟨h.lease_passed hclaim hl, by simp⟩
  · exact absurd hp hclaim.not_processed

theorem WellFormed.ownedBy_iff (h : r.WellFormed) :
    r.OwnedBy owner ↔ ∃ expiry, r.hold = .held owner expiry := by
  unfold OwnedBy
  rcases h.hold_eq with ⟨hp, hw⟩ | ⟨o, l, hp, ho, -, hw⟩ | ⟨hp, hw⟩ <;> rw [hp, hw]
  · simp
  · simp [ho]
  · simp

end Row

def Grant.delivery (g : Grant) : Delivery := ⟨g.row.entry, g.previous = .processing⟩

/-! ## The operation of a call -/

namespace Call

/-- The operation that a call has become, once its answer is fixed. -/
def effect : Call → Option Op
  | .admitEvent args (.running (.resolved o)) => some (.admitEvent args o)
  | .admitEvent args p => p.answer.map (.admitEvent args)
  | .claim args p => p.answer.map fun grants => .claim args (grants.map Grant.delivery)
  | .complete args (.running .unmatched) => some (.complete args false)
  | .complete args p => p.answer.map (.complete args)

/-- The call ended without an answer. -/
def isLost : Call → Bool
  | .admitEvent _ (.failed _) => true
  | .admitEvent _ .dropped => true
  | .claim _ (.failed _) => true
  | .claim _ .dropped => true
  | .complete _ (.failed _) => true
  | .complete _ .dropped => true
  | _ => false

theorem effect_request {call : Call} {op : Op} (h : call.effect = some op) :
    op.request = call.request := by
  unfold effect at h
  split at h
  · obtain rfl := Option.some.inj h
    rfl
  · obtain ⟨o, -, rfl⟩ := Option.map_eq_some_iff.mp h
    rfl
  · obtain ⟨o, -, rfl⟩ := Option.map_eq_some_iff.mp h
    rfl
  · obtain rfl := Option.some.inj h
    rfl
  · obtain ⟨o, -, rfl⟩ := Option.map_eq_some_iff.mp h
    rfl

theorem effect_of_lost {call : Call} (h : call.isLost = true) : call.effect = none := by
  unfold isLost at h
  split at h <;> first
    | rfl
    | cases h

theorem signal_effect {sig : Signal} {call call' : Call} (h : call.signal sig = some call') :
    call'.effect = call.effect ∨ call'.isLost = true := by
  rcases Call.signal_some h with ⟨args, p, p', rfl, rfl, hp⟩ | ⟨args, p, p', rfl, rfl, hp⟩ |
    ⟨args, p, p', rfl, rfl, hp⟩ <;>
  rcases Progress.signal_some hp with ⟨_, rfl⟩ | rfl | ⟨_, rfl, rfl⟩
  all_goals first
    | exact .inr rfl
    | exact .inl rfl

theorem signal_not_lost {sig : Signal} {call call' : Call} (h : call.signal sig = some call') :
    call.isLost = false := by
  cases call with
  | admitEvent args p | claim args p | complete args p =>
    obtain ⟨p', hp, -⟩ := Option.map_eq_some_iff.mp h
    cases p with
    | failed e | dropped => cases sig <;> cases hp
    | _ => rfl

end Call

namespace Database

variable {s s' : Database} {c : ℕ} {call call' : Call} {events : List Row} {ws : List Write}

/-- The queue that the table stands for. -/
def queue (s : Database) : EventQueue := fun id => (s.rowOf id).map Row.entry

theorem queue_of_mem (hs : s.Sound) {r : Row} (hr : r ∈ s.events) :
    s.queue r.eventId = some r.entry := by
  unfold queue rowOf
  rw [Table.lookup_of_mem hs.ids hr]
  rfl

theorem queue_some {id : EventId} {e : Entry} (h : s.queue id = some e) :
    ∃ r ∈ s.events, r.eventId = id ∧ r.entry = e := by
  obtain ⟨r, hr, rfl⟩ := Option.map_eq_some_iff.mp h
  exact ⟨r, (rowOf_some hr).1, (rowOf_some hr).2, rfl⟩

theorem queue_eq_none {id : EventId} (h : ∀ r ∈ s.events, r.eventId ≠ id) : s.queue id = none := by
  unfold queue rowOf
  rw [Table.lookup_eq_none.mpr h]
  rfl

theorem lookup_entry (id : EventId) (rows : List Row) :
    Table.lookup Entry.id id (rows.map Row.entry) =
      (Table.lookup (·.eventId) id rows).map Row.entry := Table.lookup_map

theorem queue_put {new : List Row} (h : ∀ n ∈ new, ∃ r ∈ s.events, r.eventId = n.eventId)
    (he : s'.events = Table.put (·.eventId) new s.events) :
    s'.queue = s.queue.put (new.map Row.entry) := by
  funext id
  unfold queue EventQueue.put rowOf
  rw [he, Table.lookup_put h, lookup_entry]
  cases Table.lookup (·.eventId) id new <;> rfl

theorem queue_insert {row : Row} (h : ∀ r ∈ s.events, r.eventId ≠ row.eventId)
    (he : s'.events = s.events ++ [row]) : s'.queue = s.queue.put [row.entry] := by
  funext id
  unfold queue EventQueue.put rowOf
  rw [he, ← List.map_singleton, lookup_entry]
  by_cases hid : row.eventId = id
  · have hnone : Table.lookup (·.eventId) id s.events = none :=
      Table.lookup_eq_none.mpr (hid ▸ h)
    simp [Table.lookup, List.find?_append, hid] at hnone ⊢
    rw [List.find?_eq_none.mpr (by simpa using hnone)]
    rfl
  · simp [Table.lookup, List.find?_append, hid]

/-! ## Every transition is an operation or nothing -/

/-- What a transition is for the queue: nothing, or the operation that its call becomes. -/
def Linear (s : Database) (call call' : Call) (s' : Database) : Prop :=
  ((call'.effect = call.effect ∨ call'.isLost = true) ∧ s'.queue = s.queue) ∨
  (call.effect = none ∧ ∃ op, call'.effect = some op ∧ s.queue.Apply op s'.queue)

theorem queue_congr (h : s'.events = s.events) : s'.queue = s.queue := by
  unfold queue rowOf
  rw [h]

theorem linear_insert (hs : s.Sound) {args : AdmitArgs} {row : Row}
    (hc : s.calls[c]? = some (.admitEvent args (.running (.inserted row))))
    (he : s'.events = s.events ++ [row]) :
    s.queue.Apply (.admitEvent args (.created row.eventId)) s'.queue := by
  have hv := hs.calls c _ hc
  have hfresh := hv.fresh row rfl
  obtain ⟨now, hrow⟩ := hv.coherent
  obtain ⟨hscope, hid⟩ := AdmitArgs.checkedRow_key hrow
  obtain ⟨-, -, payload, hpayload, rfl⟩ := AdmitArgs.checkedRow_eq_ok.mp hrow
  rw [queue_insert (fun r hr => (hfresh r hr).2) he]
  refine .created hpayload (queue_eq_none fun r hr => (hfresh r hr).2) fun id e he' => ?_
  obtain ⟨r, hr, -, rfl⟩ := queue_some he'
  exact (hfresh r hr).1

theorem linear_claim (h : s.Reachable) {args : ClaimArgs} {now : Timestamp} {rest : List EventId}
    {picked : List Row}
    (hc : s.calls[c]? = some (.claim args (.running (.scanning now rest picked))))
    (hlimit : picked.length ≤ args.limit)
    (he : s'.events =
      Table.put (·.eventId) (picked.map (·.claimed args.owner now args.lease)) s.events) :
    s.queue.Apply (.claim args ((picked.map (args.grant now)).map Grant.delivery)) s'.queue := by
  have hv := h.sound.calls c _ hc
  have hknown : ∀ n ∈ picked.map (·.claimed args.owner now args.lease),
      ∃ r ∈ s.events, r.eventId = n.eventId := by
    intro n hn
    obtain ⟨r, hr, rfl⟩ := List.mem_map.mp hn
    exact ⟨r, hv.locked r hr, rfl⟩
  have hentries : ((picked.map (args.grant now)).map Grant.delivery).map (·.entry) =
      (picked.map (·.claimed args.owner now args.lease)).map Row.entry := by
    simp only [List.map_map]
    rfl
  rw [queue_put hknown he, ← hentries]
  refine .claim now ?_ (by simpa using hlimit) ?_
  · simp only [List.map_map]
    exact hv.coherent.2.sublist (List.sublist_append_left _ _)
  · intro d hd
    obtain ⟨g, hg, rfl⟩ := List.mem_map.mp hd
    obtain ⟨r, hr, rfl⟩ := List.mem_map.mp hg
    have hmem := hv.locked r hr
    obtain ⟨hfree, hwaiting⟩ := (h.wellFormed hmem).free (hv.coherent.1 r hr)
    refine ⟨r.entry, queue_of_mem h.sound hmem, hfree, ?_⟩
    simp only [Grant.delivery, ClaimArgs.grant, Row.entry_claimed, Delivery.mk.injEq, true_and]
    exact decide_eq_decide.mpr hwaiting.symm

theorem linear_complete (h : s.Reachable) {args : CompleteArgs} {now : Timestamp} {r : Row}
    (hc : s.calls[c]? = some (.complete args (.running (.locked now r))))
    (he : s'.events = Table.put (·.eventId) [r.completed now] s.events) :
    s.queue.Apply (.complete args true) s'.queue := by
  have hv := h.sound.calls c _ hc
  have hmem := hv.locked r (List.mem_singleton.mpr rfl)
  obtain ⟨hid, howned⟩ := hv.coherent
  obtain ⟨expiry, hheld⟩ := (h.wellFormed hmem).ownedBy_iff.mp howned
  rw [queue_put (s := s) ?_ he]
  · exact .completed (hid ▸ queue_of_mem h.sound hmem) hheld
  · intro n hn
    obtain rfl := List.mem_singleton.mp hn
    exact ⟨r, hmem, rfl⟩

theorem unmatched_of_step {a : Act} (h : s.step a = some s') {args : CompleteArgs}
    {stage : CompleteStage} (hc : s.calls[c]? = some (.complete args (.running stage)))
    (hc' : s'.calls[c]? = some (.complete args (.running .unmatched)))
    (hmoves : a.moves = some c) (hstage : stage ≠ .unmatched) :
    (s.rowOf args.id).filter (fun r => r.OwnedBy args.owner) = none := by
  have hlt := (List.getElem?_eq_some_iff.mp hc).1
  cases a with
  | tick now | begin req => cases hmoves
  | signal d sig =>
    obtain rfl := Option.some.inj hmoves
    simp only [step, hc, Option.bind_eq_bind, Option.bind_some, Option.bind_eq_some_iff,
      Option.some.injEq] at h
    obtain ⟨call', hsig, rfl⟩ := h
    rw [setCall, List.getElem?_set_self hlt] at hc'
    obtain rfl := Option.some.inj hc'
    obtain ⟨p, hp, heq⟩ := Option.map_eq_some_iff.mp hsig
    obtain rfl := (Call.complete.inj heq).2
    cases sig <;> cases hp
  | advance d =>
    obtain rfl := Option.some.inj hmoves
    simp only [step, advance, hc] at h
    cases stage with
    | begun now =>
      simp only [advanceComplete] at h
      split at h
      · obtain rfl := Option.some.inj h
        rw [setCall, List.getElem?_set_self hlt] at hc'
        cases hc'
      · assumption
    | found now =>
      simp only [advanceComplete] at h
      split_ifs at h
      split at h
      · obtain rfl := Option.some.inj h
        rw [setCall, List.getElem?_set_self hlt] at hc'
        cases hc'
      · assumption
    | locked now r =>
      simp only [advanceComplete] at h
      split at h <;>
      · obtain rfl := Option.some.inj h
        rw [setCall, List.getElem?_set_self hlt] at hc'
        cases hc'
    | unmatched => exact absurd rfl hstage

theorem linear_unmatched (h : s.Reachable) {args : CompleteArgs}
    (hnone : (s.rowOf args.id).filter (fun r => r.OwnedBy args.owner) = none) :
    s.queue.Apply (.complete args false) s.queue := by
  refine .ignored fun e he expiry hheld => ?_
  obtain ⟨r, hr, hid, rfl⟩ := queue_some he
  have howned := (h.wellFormed hr).ownedBy_iff.mpr ⟨expiry, hheld⟩
  have hlookup : s.rowOf args.id = some r := hid ▸ Table.lookup_of_mem h.sound.ids hr
  rw [hlookup] at hnone
  simp [howned] at hnone

theorem Reachable.linear {a : Act} (h : s.Reachable) (hstep : s.step a = some s')
    (ha : a.moves = some c) (hc : s.calls[c]? = some call) (hc' : s'.calls[c]? = some call')
    (he : s'.events = events) (ht : Transition s c call call' events ws) :
    s.Linear call call' s' := by
  cases ht with
  | move hm =>
    have hq := queue_congr he
    -- an operation that only looks
    have hlooks : ∀ {op}, s.queue.Apply op s.queue → s.queue.Apply op s'.queue := by
      intro op hop
      rwa [hq]
    cases hm with
    | replayed hr hscope hf =>
      exact .inr ⟨rfl, _, rfl, hlooks (.replayed (queue_of_mem h.sound hr) hscope hf)⟩
    | conflict hr hscope hf =>
      exact .inr ⟨rfl, _, rfl, hlooks (.conflict (queue_of_mem h.sound hr) hscope hf)⟩
    | notFound | lost =>
      have hnone := unmatched_of_step hstep hc hc' ha (by simp)
      exact .inr ⟨rfl, _, rfl, hlooks (linear_unmatched h hnone)⟩
    | signal hsig => exact .inl ⟨Call.signal_effect hsig, hq⟩
    | refused | duplicateId | missing | claimFailed | completeFailed => exact .inl ⟨.inr rfl, hq⟩
    | _ => exact .inl ⟨.inl rfl, hq⟩
  | insert => exact .inr ⟨rfl, _, rfl, linear_insert h.sound hc he⟩
  | claim hdone hroom =>
    have hlimit := (h.next hstep).grants_length hc'
    exact .inr ⟨rfl, _, rfl, linear_claim h hc (by simpa [Progress.answer] using hlimit) he⟩
  | complete => exact .inr ⟨rfl, _, rfl, linear_complete h hc he⟩

theorem start_effect (q : EventQueue) (now : Timestamp) (req : Request) :
    (req.start now).effect = none ∨
      ∃ op, (req.start now).effect = some op ∧ q.Apply op q := by
  cases req with
  | claim args =>
    simp only [Request.start]
    split_ifs
    · refine .inr ⟨_, rfl, ?_⟩
      have hnone : q.Apply (.claim args []) (q.put []) :=
        .claim now List.nodup_nil (Nat.zero_le _) (by simp)
      rwa [EventQueue.put_nil] at hnone
    · exact .inl rfl
  | _ => exact .inl rfl

/-! ## Points of a run -/

/-- The call that an action begins or moves. -/
def target (s : Database) : Act → Option ℕ
  | .tick _ => none
  | .begin _ => some s.calls.length
  | .advance c => some c
  | .signal c _ => some c

def effectAt (s : Database) (c : ℕ) : Option Op := s.calls[c]?.bind Call.effect

/-- The operation that happens in a step: that of the call whose answer is fixed by it. -/
def happens (s : Database) (a : Act) (s' : Database) : List (ℕ × Op) :=
  match s.target a with
  | none => []
  | some c => if s.effectAt c = none then (s'.effectAt c).toList.map (c, ·) else []

/-- The operations of a run, in the order in which they happen. -/
def points (s : Database) (as : List Act) : List (ℕ × Op) := trace step happens s as

theorem effectAt_eq (hc : s.calls[c]? = some call) : s.effectAt c = call.effect := by
  rw [effectAt, hc]
  rfl

theorem Reachable.happens_spec {a : Act} (h : s.Reachable) (hstep : s.step a = some s') :
    (s.happens a s' = [] ∧ s'.queue = s.queue) ∨
    ∃ c op, s.target a = some c ∧ s.effectAt c = none ∧ s'.effectAt c = some op ∧
      s.happens a s' = [(c, op)] ∧ s.queue.Apply op s'.queue := by
  have hspec := step_spec hstep
  cases hspec with
  | tick now => exact .inl ⟨rfl, rfl⟩
  | begin req =>
    have hbefore : s.effectAt s.calls.length = none := by simp [effectAt]
    have hafter : effectAt { s with calls := s.calls ++ [req.start s.clock] } s.calls.length =
        (req.start s.clock).effect := effectAt_eq List.getElem?_concat_length
    rcases start_effect s.queue s.clock req with hnone | ⟨op, hop, happly⟩
    · refine .inl ⟨?_, rfl⟩
      simp only [happens, target, hbefore, hafter, hnone, if_true]
      rfl
    · refine .inr ⟨s.calls.length, op, rfl, hbefore, hafter.trans hop, ?_, happly⟩
      simp only [happens, target, hbefore, hafter, hop, if_true]
      rfl
  | @call _ c call call' events ws hc ht ha =>
    have hc' : (s.calls.set c call')[c]? = some call' :=
      List.getElem?_set_self (List.getElem?_eq_some_iff.mp hc).1
    have htarget : s.target a = some c := by
      cases a <;> first
        | exact ha
        | cases ha
    have hbefore := effectAt_eq hc
    have hlinear := h.linear hstep ha hc hc' rfl ht
    generalize hs' : (⟨events, s.clock, s.calls.set c call', s.log ++ ws⟩ : Database) = s'
      at hlinear hc' ⊢
    have hafter : s'.effectAt c = call'.effect := effectAt_eq (hs' ▸ hc')
    rcases hlinear with ⟨hquiet, hq⟩ | ⟨hnone, op, hop, happly⟩
    · refine .inl ⟨?_, hq⟩
      simp only [happens, htarget, hbefore, hafter]
      rcases hquiet with heq | hlost
      · rw [heq]
        cases call.effect <;> rfl
      · rw [Call.effect_of_lost hlost]
        exact ite_self _
    · refine .inr ⟨c, op, htarget, hbefore.trans hnone, hafter.trans hop, ?_, happly⟩
      simp only [happens, htarget, hbefore, hafter, hnone, hop, if_true]
      rfl

theorem step_other {a : Act} (h : s.step a = some s') (hne : s.target a ≠ some c) :
    s'.calls[c]? = s.calls[c]? := by
  cases step_spec h with
  | tick now => rfl
  | begin req =>
    have hlen : c ≠ s.calls.length := fun hc => hne (hc ▸ rfl)
    rcases Nat.lt_or_gt_of_ne hlen with hlt | hgt
    · exact List.getElem?_append_left hlt
    · rw [List.getElem?_eq_none hgt.le, List.getElem?_eq_none]
      rw [List.length_append, List.length_singleton]
      omega
  | @call _ d call call' events ws hd ht ha =>
    refine List.getElem?_set_ne fun hdc => hne ?_
    cases a <;> first
      | exact hdc ▸ ha
      | cases ha

theorem Transition.not_lost (h : Transition s c call call' events ws) : call.isLost = false := by
  cases h with
  | move h =>
    cases h with
    | signal hsig => exact Call.signal_not_lost hsig
    | _ => rfl
  | _ => rfl

/-- What a step makes of a call: the answer that was fixed is kept or lost. -/
theorem Reachable.call_next {a : Act} (h : s.Reachable) (hstep : s.step a = some s')
    (hc : s.calls[c]? = some call) :
    ∃ call' : Call, s'.calls[c]? = some call' ∧ call'.request = call.request ∧
      (call.isLost = true → call' = call) ∧
      (call.effect = none ∨ call'.effect = call.effect ∨ call'.isLost = true) := by
  by_cases htarget : s.target a = some c
  · have hspec := step_spec hstep
    cases hspec with
    | tick now => cases htarget
    | begin req =>
      obtain rfl := Option.some.inj htarget
      simp at hc
    | @call _ d call₀ call' events ws hd ht ha =>
      obtain rfl : d = c := by
        cases a <;> first
          | exact Option.some.inj (ha.symm.trans htarget)
          | cases ha
      obtain rfl := Option.some.inj (hc.symm.trans hd)
      have hd' : (s.calls.set d call')[d]? = some call' :=
        List.getElem?_set_self (List.getElem?_eq_some_iff.mp hd).1
      refine ⟨call', hd', ht.request, fun hlost => ?_, ?_⟩
      · rw [ht.not_lost] at hlost
        cases hlost
      · rcases h.linear hstep ha hd hd' rfl ht with ⟨hquiet, -⟩ | ⟨hnone, -⟩
        · exact .inr hquiet
        · exact .inl hnone
  · exact ⟨call, (step_other hstep htarget).trans hc, rfl, fun _ => rfl, .inr (.inl rfl)⟩

theorem Reachable.effect_new {a : Act} (h : s.Reachable) (hstep : s.step a = some s') {op : Op}
    (hop : s'.effectAt c = some op) : s.effectAt c = some op ∨ (c, op) ∈ s.happens a s' := by
  by_cases htarget : s.target a = some c
  · cases hbefore : s.effectAt c with
    | none =>
      refine .inr ?_
      simp only [happens, htarget, hbefore, hop, if_true]
      exact List.mem_singleton.mpr rfl
    | some op₀ =>
      obtain ⟨call, hc, heffect⟩ := Option.bind_eq_some_iff.mp hbefore
      obtain ⟨call', hc', -, -, hnone | heq | hlost⟩ := h.call_next hstep hc
      · cases hnone.symm.trans heffect
      · rw [effectAt_eq hc', heq, heffect] at hop
        exact .inl hop
      · rw [effectAt_eq hc', Call.effect_of_lost hlost] at hop
        cases hop
  · rw [effectAt, step_other hstep htarget] at hop
    exact .inl hop

/-- The operations `H` are those of the calls of `s`. -/
structure Recorded (H : List (ℕ × Op)) (s : Database) : Prop where
  once : (H.map Prod.fst).Nodup
  answers : ∀ c op, s.effectAt c = some op → (c, op) ∈ H
  calls : ∀ c op, (c, op) ∈ H → ∃ call : Call, s.calls[c]? = some call ∧
    call.request = op.request ∧ (call.effect = some op ∨ call.isLost = true)

theorem Recorded.fresh {H : List (ℕ × Op)} {a : Act} (hR : Recorded H s) (h : s.Reachable)
    (hstep : s.step a = some s') {op : Op} (hbefore : s.effectAt c = none)
    (hafter : s'.effectAt c = some op) : c ∉ H.map Prod.fst := by
  intro hmem
  obtain ⟨⟨d, op₀⟩, hx, rfl⟩ := List.mem_map.mp hmem
  obtain ⟨call, hc, -, heffect | hlost⟩ := hR.calls d op₀ hx
  · rw [effectAt_eq hc, heffect] at hbefore
    cases hbefore
  · obtain ⟨call', hc', -, hsame, -⟩ := h.call_next hstep hc
    rw [effectAt_eq hc', hsame hlost, Call.effect_of_lost hlost] at hafter
    cases hafter

theorem recorded_step {H : List (ℕ × Op)} {a : Act} (h : s.Reachable) (hR : Recorded H s)
    (hstep : s.step a = some s') : Recorded (H ++ s.happens a s') s' := by
  refine ⟨?_, fun c op hop => ?_, fun c op hmem => ?_⟩
  · rcases h.happens_spec hstep with ⟨hnil, -⟩ | ⟨c, op, -, hbefore, hafter, hone, -⟩
    · rw [hnil, List.append_nil]
      exact hR.once
    · have hfresh := hR.fresh h hstep hbefore hafter
      rw [hone, List.map_append]
      exact List.Nodup.append hR.once (List.nodup_singleton _) (by simpa using hfresh)
  · rcases h.effect_new hstep hop with hold | hnew
    · exact List.mem_append_left _ (hR.answers c op hold)
    · exact List.mem_append_right _ hnew
  · rcases List.mem_append.mp hmem with hold | hnew
    · obtain ⟨call, hc, hreq, heffect⟩ := hR.calls c op hold
      obtain ⟨call', hc', hreq', hsame, hnext⟩ := h.call_next hstep hc
      refine ⟨call', hc', hreq'.trans hreq, ?_⟩
      rcases heffect with heffect | hlost
      · rcases hnext with hnone | heq | hlost
        · cases hnone.symm.trans heffect
        · exact .inl (heq.trans heffect)
        · exact .inr hlost
      · rw [hsame hlost]
        exact .inr hlost
    · rcases h.happens_spec hstep with ⟨hnil, -⟩ | ⟨d, op', -, -, hafter, hone, -⟩
      · rw [hnil] at hnew
        cases hnew
      · rw [hone] at hnew
        cases List.mem_singleton.mp hnew
        obtain ⟨call, hc, heffect⟩ := Option.bind_eq_some_iff.mp hafter
        exact ⟨call, hc, (Call.effect_request heffect).symm, .inl heffect⟩

theorem run_recorded {clock : Timestamp} {as : List Act} (h : run step (empty clock) as = some s) :
    Recorded ((empty clock).points as) s := by
  refine trace_invariant (P := Recorded) ?_
    (fun H t a t' ht hR ha => recorded_step ⟨clock, ht⟩ hR ha) h
  refine ⟨List.nodup_nil, fun c op hop => ?_, fun c op hmem => absurd hmem (by simp)⟩
  simp [effectAt, empty] at hop

/-- **Linearizability.** The operations of a run, in the order in which they happen, are a run of
the atomic queue that ends in the table. Every call happens at most once, with its own request, and
one that has an answer happened with that answer. A call that began after another one was decided
happens after it. -/
theorem linearizable {clock : Timestamp} {as : List Act}
    (h : run step (empty clock) as = some s) :
    Applies EventQueue.Apply EventQueue.empty (((empty clock).points as).map Prod.snd) s.queue ∧
    (((empty clock).points as).map Prod.fst).Nodup ∧
    (∀ (c : ℕ) (call : Call) (op : Op), s.calls[c]? = some call → call.effect = some op →
      (c, op) ∈ (empty clock).points as) ∧
    (∀ (c : ℕ) (op : Op), (c, op) ∈ (empty clock).points as →
      ∃ call : Call, s.calls[c]? = some call ∧ call.request = op.request ∧
        (call.effect = some op ∨ call.isLost = true)) ∧
    (∀ (bs cs : List Act) (t : Database), as = bs ++ cs → run step (empty clock) bs = some t →
      ∀ (i j : ℕ) (first second : Op), t.effectAt i = some first → t.calls.length ≤ j →
        (j, second) ∈ (empty clock).points as →
        [(i, first), (j, second)].Sublist ((empty clock).points as)) := by
  have hR := run_recorded h
  refine ⟨?_, hR.once, fun c call op hc hop => hR.answers c op ((effectAt_eq hc).trans hop),
    hR.calls, ?_⟩
  · refine Applies.map (run_refines queue (fun t a t' ht ha => ?_) h)
    have hreach : t.Reachable := ⟨clock, ht⟩
    rcases hreach.happens_spec ha with ⟨hnil, hq⟩ | ⟨c, op, -, -, -, hone, happly⟩
    · rw [hnil, hq]
      rfl
    · rw [hone]
      exact .single happly
  · rintro bs cs t rfl hbs i j first second hi hj hmem
    have hsplit : (empty clock).points (bs ++ cs) = (empty clock).points bs ++ t.points cs :=
      trace_append hbs
    have hRt := run_recorded hbs
    rw [hsplit] at hmem ⊢
    rcases List.mem_append.mp hmem with hold | hnew
    · obtain ⟨call, hc, -⟩ := hRt.calls j second hold
      have hlt := (List.getElem?_eq_some_iff.mp hc).1
      omega
    · exact (List.singleton_sublist.mpr (hRt.answers i first hi)).append
        (List.singleton_sublist.mpr hnew)

/-- In `race` the losers happen after the winner, whose caller never hears of it. -/
theorem linearizable_race :
    (((empty 0).points race).map fun x => (x.1, x.2.outcome)) =
        [(0, some (.created ⟨1⟩)), (1, some .conflict), (2, some (.replayed ⟨1⟩))] ∧
      ∃ s, run step (empty 0) race = some s ∧
        Applies EventQueue.Apply EventQueue.empty (((empty 0).points race).map Prod.snd)
          s.queue := by
  have hrun : (run step (empty 0) race).isSome = true := by decide +kernel
  obtain ⟨s, hs⟩ := Option.isSome_iff_exists.mp hrun
  exact ⟨by decide +kernel, s, hs, (linearizable hs).1⟩

end Database

end PulseStream
