import PulseStream.Store.Steps

/-!
# Locks and uniqueness

Two invariants of every reachable database. `Exclusive`: no two calls hold a lock on the same row
or an uncommitted row of the same key. `Sound`: ids and keys are unique, a locked row is the
committed row and still passes the WHERE clause it was locked under, and an uncommitted row
collides with no committed one.
-/

namespace PulseStream

namespace Call

/-- The two calls have no lock and no uncommitted key in common. -/
def Disjoint (a b : Call) : Prop :=
  (∀ r ∈ a.lockedRows, ∀ r' ∈ b.lockedRows, r.eventId ≠ r'.eventId) ∧
  (∀ r ∈ a.insertedRow, ∀ r' ∈ b.insertedRow, r.scope ≠ r'.scope ∧ r.eventId ≠ r'.eventId)

theorem Disjoint.symm {a b : Call} (h : a.Disjoint b) : b.Disjoint a :=
  ⟨fun r hr r' hr' => (h.1 r' hr' r hr).symm,
    fun r hr r' hr' => ⟨(h.2 r' hr' r hr).1.symm, (h.2 r' hr' r hr).2.symm⟩⟩

theorem start_holds_nothing (now : Timestamp) (req : Request) :
    (req.start now).lockedRows = [] ∧ (req.start now).insertedRow = none := by
  cases req with
  | admitEvent args => exact ⟨rfl, rfl⟩
  | claim args =>
    simp only [Request.start]
    split_ifs <;> exact ⟨rfl, rfl⟩
  | complete args => exact ⟨rfl, rfl⟩

end Call

theorem Progress.signal_some {W R : Type} {sig : Signal} {p p' : Progress W R}
    (h : p.signal sig = some p') :
    (∃ e, p' = .failed (.ofSqlx e)) ∨ p' = .dropped ∨ ∃ r, p = .committed r ∧ p' = .returned r := by
  cases sig <;> cases p <;> simp only [signal, Option.some.injEq, reduceCtorEq] at h <;>
    subst h <;> simp

theorem Call.signal_some {sig : Signal} {call call' : Call} (h : call.signal sig = some call') :
    (∃ args p p', call = .admitEvent args p ∧ call' = .admitEvent args p' ∧
      p.signal sig = some p') ∨
    (∃ args p p', call = .claim args p ∧ call' = .claim args p' ∧ p.signal sig = some p') ∨
    (∃ args p p', call = .complete args p ∧ call' = .complete args p' ∧
      p.signal sig = some p') := by
  cases call with
  | admitEvent args p =>
    obtain ⟨p', hp, rfl⟩ := Option.map_eq_some_iff.mp h
    exact .inl ⟨args, p, p', rfl, rfl, hp⟩
  | claim args p =>
    obtain ⟨p', hp, rfl⟩ := Option.map_eq_some_iff.mp h
    exact .inr (.inl ⟨args, p, p', rfl, rfl, hp⟩)
  | complete args p =>
    obtain ⟨p', hp, rfl⟩ := Option.map_eq_some_iff.mp h
    exact .inr (.inr ⟨args, p, p', rfl, rfl, hp⟩)

theorem Call.signal_releases {sig : Signal} {call call' : Call}
    (h : call.signal sig = some call') : call'.lockedRows = [] ∧ call'.insertedRow = none := by
  rcases Call.signal_some h with ⟨_, _, p', _, rfl, hp⟩ | ⟨_, _, p', _, rfl, hp⟩ |
    ⟨_, _, p', _, rfl, hp⟩ <;>
  rcases Progress.signal_some hp with ⟨_, rfl⟩ | rfl | ⟨_, _, rfl⟩ <;>
  exact ⟨rfl, rfl⟩

namespace Database

variable {s s' : Database} {c : ℕ} {call call' : Call} {events : List Row} {ws : List Write}

/-! ## Locks -/

theorem Transition.lockedRows (h : Transition s c call call' events ws) :
    ∀ r ∈ call'.lockedRows,
      r ∈ call.lockedRows ∨ (r ∈ s.events ∧ s.lockedBySome r.eventId = false) := by
  intro r hr
  cases h with
  | move h =>
    cases h with
    | pick hroom hmem hclaim hfree =>
      rcases List.mem_append.mp hr with hr | hr
      · exact .inl hr
      · obtain rfl := List.mem_singleton.mp hr
        exact .inr ⟨hmem, hfree⟩
    | locked hmem hid howned hfree =>
      obtain rfl := List.mem_singleton.mp hr
      exact .inr ⟨hmem, hid ▸ hfree⟩
    | skip h => exact .inl hr
    | signal h =>
      rw [(Call.signal_releases h).1] at hr
      cases hr
    | _ => cases hr
  | _ => cases hr

theorem Transition.insertedRow (h : Transition s c call call' events ws) :
    ∀ row ∈ call'.insertedRow, row ∈ call.insertedRow ∨
      ((∀ r ∈ s.uncommitted, r.scope ≠ row.scope ∧ r.eventId ≠ row.eventId) ∧
        ∀ r ∈ s.events, r.scope ≠ row.scope ∧ r.eventId ≠ row.eventId) := by
  intro row hrow
  cases h with
  | move h =>
    cases h with
    | inserted h hopen hrows =>
      obtain rfl := Option.some.inj hrow
      exact .inr ⟨hopen, hrows⟩
    | signal h =>
      rw [(Call.signal_releases h).2] at hrow
      cases hrow
    | _ => cases hrow
  | _ => cases hrow

/-- No two calls have a lock or an uncommitted key in common. -/
def Exclusive (s : Database) : Prop :=
  ∀ (i j : ℕ) (a b : Call), i ≠ j → s.calls[i]? = some a → s.calls[j]? = some b → a.Disjoint b

theorem Transition.disjoint {j : ℕ} {b : Call} (h : Transition s c call call' events ws)
    (hb : s.calls[j]? = some b) (hd : call.Disjoint b) : call'.Disjoint b := by
  constructor
  · intro r hr r' hr'
    rcases h.lockedRows r hr with hold | ⟨-, hfree⟩
    · exact hd.1 r hold r' hr'
    · exact (not_locked hfree hb r' hr').symm
  · intro row hrow r' hr'
    rcases h.insertedRow row hrow with hold | ⟨hopen, -⟩
    · exact hd.2 row hold r' hr'
    · obtain ⟨hscope, hid⟩ := hopen r' (mem_uncommitted.mpr ⟨j, b, hb, hr'⟩)
      exact ⟨hscope.symm, hid.symm⟩

theorem exclusive_step {a : Act} (h : Steps s a s') (hs : s.Exclusive) : s'.Exclusive := by
  cases h with
  | tick now => exact hs
  | begin req =>
    have hnew : ∀ b : Call, (req.start s.clock).Disjoint b := by
      intro b
      obtain ⟨hlocked, hinserted⟩ := Call.start_holds_nothing s.clock req
      unfold Call.Disjoint
      rw [hlocked, hinserted]
      exact ⟨fun _ h => absurd h (by simp), fun _ h => absurd h (by simp)⟩
    intro i j a b hij hi hj
    rcases calls_append hi with ⟨-, rfl⟩ | ⟨-, hi⟩
    · exact hnew b
    · rcases calls_append hj with ⟨-, rfl⟩ | ⟨-, hj⟩
      · exact (hnew a).symm
      · exact hs i j a b hij hi hj
  | call hc h =>
    intro i j a b hij hi hj
    rcases calls_setCall hi with ⟨rfl, rfl⟩ | ⟨-, hi'⟩
    · rcases calls_setCall hj with ⟨rfl, -⟩ | ⟨-, hj'⟩
      · exact absurd rfl hij
      · exact h.disjoint hj' (hs i j _ b hij hc hj')
    · rcases calls_setCall hj with ⟨rfl, rfl⟩ | ⟨-, hj'⟩
      · exact (h.disjoint hi' (hs j i _ a (Ne.symm hij) hc hi')).symm
      · exact hs i j a b hij hi' hj'

theorem Reachable.exclusive (h : s.Reachable) : s.Exclusive := by
  refine h.invariant ?_ fun t a t' _ ht hstep => exclusive_step hstep ht
  intro clock i j a b _ hi
  simp [empty] at hi

end Database

/-! ## The table -/

/-- What a call in progress knows about the rows it holds. -/
def Call.Coherent : Call → Prop
  | .admitEvent args (.running (.inserted row)) => ∃ now, args.checkedRow now = .ok row
  | .claim _ (.running (.scanning now rest picked)) =>
    (∀ r ∈ picked, r.Claimable now) ∧ (picked.map (·.eventId) ++ rest).Nodup
  | .complete args (.running (.locked _ r)) => r.eventId = args.id ∧ r.OwnedBy args.owner
  | _ => True

theorem Call.start_coherent (now : Timestamp) (req : Request) : (req.start now).Coherent := by
  cases req with
  | admitEvent args => trivial
  | claim args =>
    simp only [Request.start]
    split_ifs <;> trivial
  | complete args => trivial

theorem Call.signal_coherent {sig : Signal} {call call' : Call}
    (h : call.signal sig = some call') : call'.Coherent := by
  rcases Call.signal_some h with ⟨_, _, p', _, rfl, hp⟩ | ⟨_, _, p', _, rfl, hp⟩ |
    ⟨_, _, p', _, rfl, hp⟩ <;>
  rcases Progress.signal_some hp with ⟨_, rfl⟩ | rfl | ⟨_, _, rfl⟩ <;>
  trivial

/-- What a call in progress may rely on in the committed table. -/
structure Call.Valid (events : List Row) (call : Call) : Prop where
  locked : ∀ r ∈ call.lockedRows, r ∈ events
  fresh : ∀ row ∈ call.insertedRow, ∀ r ∈ events, r.scope ≠ row.scope ∧ r.eventId ≠ row.eventId
  coherent : call.Coherent

theorem Call.start_valid (events : List Row) (now : Timestamp) (req : Request) :
    (req.start now).Valid events := by
  obtain ⟨hlocked, hinserted⟩ := Call.start_holds_nothing now req
  refine ⟨?_, ?_, Call.start_coherent now req⟩
  · simp [hlocked]
  · simp [hinserted]

namespace Database

variable {s s' : Database} {c : ℕ} {call call' : Call} {events : List Row} {ws : List Write}

/-- Ids and keys are unique, and every call in progress is right about the table. -/
structure Sound (s : Database) : Prop where
  ids : (s.events.map (·.eventId)).Nodup
  scopes : (s.events.map (·.scope)).Nodup
  calls : ∀ (i : ℕ) (call : Call), s.calls[i]? = some call → call.Valid s.events

theorem Sound.eq_of_id (hs : s.Sound) {r r' : Row} (hr : r ∈ s.events) (hr' : r' ∈ s.events)
    (h : r.eventId = r'.eventId) : r = r' := List.inj_on_of_nodup_map hs.ids hr hr' h

theorem Sound.eq_of_scope (hs : s.Sound) {r r' : Row} (hr : r ∈ s.events) (hr' : r' ∈ s.events)
    (h : r.scope = r'.scope) : r = r' := List.inj_on_of_nodup_map hs.scopes hr hr' h

theorem candidates_nodup (hs : s.Sound) (now : Timestamp) : (s.candidates now).Nodup := by
  unfold candidates candidateRows
  rw [((KeySort.keySort_perm _ _).map _).nodup_iff]
  exact hs.ids.sublist (List.filter_sublist.map _)

section Effect

variable (hs : s.Sound) (hc : s.calls[c]? = some call) (h : Transition s c call call' events ws)

include hs hc h

theorem Transition.content :
    events.map (·.toContent) = s.events.map (·.toContent) ∨
      ∃ row, call.insertedRow = some row ∧ events = s.events ++ [row] := by
  have hv := hs.calls c call hc
  cases h with
  | move h => exact .inl rfl
  | insert => exact .inr ⟨_, rfl, rfl⟩
  | claim hdone hroom =>
    refine .inl (Table.map_put fun n hn r hr hid => ?_)
    obtain ⟨p, hp, rfl⟩ := List.mem_map.mp hn
    obtain rfl := hs.eq_of_id (hv.locked p hp) hr hid
    rfl
  | @complete args now l =>
    refine .inl (Table.map_put fun n hn r hr hid => ?_)
    obtain rfl := List.mem_singleton.mp hn
    obtain rfl := hs.eq_of_id (hv.locked l (List.mem_singleton.mpr rfl)) hr hid
    rfl

omit hs hc in
theorem Transition.keeps {r : Row} (hr : r ∈ s.events)
    (hfree : ∀ l ∈ call.lockedRows, l.eventId ≠ r.eventId) : r ∈ events := by
  cases h with
  | move h => exact hr
  | insert => exact List.mem_append_left _ hr
  | claim hdone hroom =>
    refine Table.mem_put_of_mem hr fun n hn => ?_
    obtain ⟨p, hp, rfl⟩ := List.mem_map.mp hn
    exact hfree p hp
  | @complete args now l =>
    refine Table.mem_put_of_mem hr fun n hn => ?_
    obtain rfl := List.mem_singleton.mp hn
    exact hfree l (List.mem_singleton.mpr rfl)

theorem Transition.origin {r' : Row} (hr' : r' ∈ events) :
    (∃ r ∈ s.events, r'.toContent = r.toContent) ∨ call.insertedRow = some r' := by
  rcases h.content hs hc with heq | ⟨row, hrow, rfl⟩
  · have hmem : r'.toContent ∈ s.events.map (·.toContent) := heq ▸ List.mem_map_of_mem hr'
    obtain ⟨r, hr, hcontent⟩ := List.mem_map.mp hmem
    exact .inl ⟨r, hr, hcontent.symm⟩
  · rcases List.mem_append.mp hr' with hr' | hr'
    · exact .inl ⟨r', hr', rfl⟩
    · exact .inr (List.mem_singleton.mp hr' ▸ hrow)

theorem Transition.persists {r : Row} (hr : r ∈ s.events) :
    ∃ r' ∈ events, r'.toContent = r.toContent := by
  rcases h.content hs hc with heq | ⟨row, -, rfl⟩
  · have hmem : r.toContent ∈ events.map (·.toContent) := heq ▸ List.mem_map_of_mem hr
    exact List.mem_map.mp hmem
  · exact ⟨r, List.mem_append_left _ hr, rfl⟩

theorem Transition.nodup {K : Type} {f : Content → K}
    (hf : (s.events.map fun r => f r.toContent).Nodup)
    (hnew : ∀ row ∈ call.insertedRow, ∀ r ∈ s.events, f r.toContent ≠ f row.toContent) :
    (events.map fun r => f r.toContent).Nodup := by
  rcases h.content hs hc with heq | ⟨row, hrow, rfl⟩
  · have hmap := congrArg (List.map f) heq
    rw [List.map_map, List.map_map] at hmap
    exact (show events.map (fun r => f r.toContent) = s.events.map fun r => f r.toContent from
      hmap) ▸ hf
  · rw [List.map_append]
    refine List.Nodup.append hf (List.nodup_singleton _) fun x hx hx' => ?_
    obtain ⟨r, hr, rfl⟩ := List.mem_map.mp hx
    exact hnew row hrow r hr (List.mem_singleton.mp hx')

theorem Transition.coherent : call'.Coherent := by
  have hv := (hs.calls c call hc).coherent
  cases h with
  | move h =>
    cases h with
    | inserted h hopen hrows => exact ⟨_, h⟩
    | snapshot => exact ⟨fun r hr => absurd hr (by simp), candidates_nodup hs _⟩
    | skip h => exact ⟨hv.1, hv.2.sublist ((List.sublist_cons_self _ _).append_left _)⟩
    | pick hroom hmem hclaim hfree =>
      refine ⟨fun r hr => ?_, ?_⟩
      · rcases List.mem_append.mp hr with hr | hr
        · exact hv.1 r hr
        · exact List.mem_singleton.mp hr ▸ hclaim
      · rw [List.map_append, List.append_assoc]
        exact hv.2
    | locked hmem hid howned hfree => exact ⟨hid, howned⟩
    | signal h => exact Call.signal_coherent h
    | _ => trivial
  | _ => trivial

omit hs hc in
theorem Transition.holds_before_commit
    (hold : call'.lockedRows ≠ [] ∨ call'.insertedRow ≠ none) : events = s.events := by
  cases h with
  | move h => rfl
  | _ => exact absurd hold (by simp [Call.lockedRows, Call.insertedRow])

theorem Transition.valid : call'.Valid events := by
  have hv := hs.calls c call hc
  refine ⟨fun r hr => ?_, fun row hrow => ?_, h.coherent hs hc⟩
  · rw [h.holds_before_commit (.inl (List.ne_nil_of_mem hr))]
    rcases h.lockedRows r hr with hold | ⟨hmem, -⟩
    · exact hv.locked r hold
    · exact hmem
  · rw [h.holds_before_commit (.inr (by rw [hrow]; exact Option.some_ne_none row))]
    rcases h.insertedRow row hrow with hold | ⟨-, hrows⟩
    · exact hv.fresh row hold
    · exact hrows

theorem Transition.valid_other {i : ℕ} {b : Call} (hb : s.calls[i]? = some b)
    (hd : call.Disjoint b) : b.Valid events := by
  have hv := hs.calls i b hb
  refine ⟨fun r hr => ?_, fun row hrow r' hr' => ?_, hv.coherent⟩
  · exact h.keeps (hv.locked r hr) fun l hl => hd.1 l hl r hr
  · rcases h.origin hs hc hr' with ⟨r, hr, hcontent⟩ | hins
    · rw [hcontent]
      exact hv.fresh row hrow r hr
    · exact hd.2 r' hins row hrow

end Effect

theorem sound_step {a : Act} (h : Steps s a s') (hx : s.Exclusive) (hs : s.Sound) : s'.Sound := by
  cases h with
  | tick now => exact ⟨hs.ids, hs.scopes, hs.calls⟩
  | begin req =>
    refine ⟨hs.ids, hs.scopes, fun i call hi => ?_⟩
    rcases calls_append hi with ⟨-, rfl⟩ | ⟨-, hi'⟩
    · exact Call.start_valid _ _ _
    · exact hs.calls i call hi'
  | @call _ c call call' events ws hc h =>
    have hfresh := (hs.calls c call hc).fresh
    refine ⟨?_, ?_, fun i b hi => ?_⟩
    · exact h.nodup hs hc (f := Content.eventId) hs.ids fun row hrow r hr =>
        (hfresh row hrow r hr).2
    · exact h.nodup hs hc (f := Content.scope) hs.scopes fun row hrow r hr =>
        (hfresh row hrow r hr).1
    · rcases calls_setCall hi with ⟨rfl, rfl⟩ | ⟨hic, hi'⟩
      · exact h.valid hs hc
      · exact h.valid_other hs hc hi' (hx c i call b (Ne.symm hic) hc hi')

theorem Reachable.sound (h : s.Reachable) : s.Sound := by
  refine h.invariant ?_ fun t a t' ht hsound hstep => sound_step hstep ht.exclusive hsound
  intro clock
  exact ⟨List.nodup_nil, List.nodup_nil, fun i call hi => by simp [empty] at hi⟩

end Database

end PulseStream
