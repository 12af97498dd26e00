import PulseStream.System.Machine

/-!
# What the workers know about the store

The invariant that ties the tasks of every worker to the calls of the database: a task past its
processor has the success on record, a completing task has sent the call it waits for, a claim was
returned by a call of the store (`Worker.Backed`), and every completion was sent by such a task
(`Consistent`). With it goes the count of completions (`Reachable.counted`).
-/

namespace PulseStream

variable {F : Type} [SerdeJson F]

/-- The processor has returned `Ok(())` for the task. -/
def Task.isProcessed (t : Task) : Bool :=
  match t.stage with
  | .processed => true
  | .completing _ => true
  | _ => false

theorem Task.not_isProcessed_of_isOver {t : Task} (h : t.isOver = true) :
    t.isProcessed = false := by
  unfold isOver at h
  unfold isProcessed
  split at h <;> simp_all

/-- What worker `k` holds agrees with the database and the records. -/
structure Worker.Backed (s : System) (k : ℕ) (w : Worker) : Prop where
  recorded : ∀ t ∈ w.tasks, t.isProcessed = true → ⟨k, t.id, t.claim.event.id⟩ ∈ s.done
  completing : ∀ t ∈ w.tasks, ∀ c, t.stage = .completing c →
    ⟨c, k, t.id⟩ ∈ s.sent ∧ ∃ p, s.db.calls[c]? = some (.complete ⟨t.claim.event.id, w.owner⟩ p)
  claims : ∀ x ∈ w.claims, ∃ (c : ℕ) (call : Call), s.db.calls[c]? = some call ∧
    call.isReturned = true ∧ x ∈ call.claimedEvents

namespace System

variable {s s' : System} {a : SystemAct}

/-- Nothing on record is forgotten. -/
structure Extends (s s' : System) : Prop where
  carries : s.db.Carries s'.db
  done : s.done ⊆ s'.done
  sent : s.sent ⊆ s'.sent
  workers : ∀ (k : ℕ) (w : Worker), s.workers[k]? = some w →
    ∃ w' : Worker, s'.workers[k]? = some w' ∧ w'.owner = w.owner

theorem db_carries {db db' : Database} (h : db' = db ∨ ∃ act, db.step act = some db') :
    db.Carries db' := by
  rcases h with rfl | ⟨act, hact⟩
  · exact .refl db'
  · exact (Database.step_spec hact).carries

theorem Steps.extends (h : Steps s a s') : s.Extends s' := by
  refine ⟨db_carries h.db, ?_, ?_, ?_⟩
  · cases h with
    | worker hw hlive h hdb => exact List.subset_append_left _ _
    | _ => exact List.Subset.refl _
  · cases h with
    | worker hw hlive h hdb => exact List.subset_append_left _ _
    | _ => exact List.Subset.refl _
  · intro k w hk
    have hlt := (List.getElem?_eq_some_iff.mp hk).1
    cases h with
    | store hown h => exact ⟨w, hk, rfl⟩
    | start h => exact ⟨w, by rwa [List.getElem?_append_left hlt], rfl⟩
    | @worker i _ w₀ w₁ db hw hlive h hdb =>
      by_cases hik : i = k
      · subst hik
        obtain rfl := Option.some.inj (hw.symm.trans hk)
        exact ⟨w₁, List.getElem?_set_self hlt, h.owner⟩
      · exact ⟨w, by rwa [List.getElem?_set_ne hik], rfl⟩

end System

theorem Worker.Backed.mono {s s' : System} {k : ℕ} {w : Worker} (hb : w.Backed s k)
    (h : s.Extends s') : w.Backed s' k := by
  refine ⟨fun t ht hp => h.done (hb.recorded t ht hp), fun t ht c hstage => ?_, fun x hx => ?_⟩
  · obtain ⟨hsent, p, hc⟩ := hb.completing t ht c hstage
    exact ⟨h.sent hsent, h.carries.complete hc⟩
  · obtain ⟨c, call, hc, hret, hx⟩ := hb.claims x hx
    exact ⟨c, call, h.carries.returned hc hret, hret, hx⟩

/-! ## One step -/

namespace System

section Worker

variable {s s' : System} {a : SystemAct} {k : ℕ} {w w' : Worker} {b : WorkerAct} {db : Database}
  (h : w.Steps b w') (hdb : s.db.Exchange w b db) (hb : w.Backed s k)
  (hext : s.Extends s') (hs' : s'.db = db) (hdone : s'.done = s.done ++ w.record k b)
  (hsent : s'.sent = s.sent ++ b.sending k)

include h hb hext hdone in
theorem recorded_step {t : Task} (ht : t ∈ w'.tasks) (hp : t.isProcessed = true) :
    (⟨k, t.id, t.claim.event.id⟩ : ProcessedOk) ∈ s'.done := by
  cases h.tasks ht with
  | kept hold => exact hext.done (hb.recorded t hold hp)
  | spawned hphase => cases hp
  | ended hold hover => exact absurd hp (by simp [Task.not_isProcessed_of_isOver hover])
  | @processed t hold =>
    rw [hdone]
    exact List.mem_append_right _ (by simp [Worker.record, hold])
  | @sent c t hold hstage =>
    exact hext.done (hb.recorded t (Worker.task_mem hold) (by simp [Task.isProcessed, hstage]))

include h hdb hb hext hs' hsent in
theorem completing_step {t : Task} (ht : t ∈ w'.tasks) {c : ℕ} (hstage : t.stage = .completing c) :
    ⟨c, k, t.id⟩ ∈ s'.sent ∧
      ∃ p, s'.db.calls[c]? = some (.complete ⟨t.claim.event.id, w'.owner⟩ p) := by
  rw [h.owner]
  cases h.tasks ht with
  | kept hold => exact (hb.mono hext).completing t hold c hstage
  | spawned hphase => cases hstage
  | ended hold hover => exact absurd hover (by simp_all [Task.isOver])
  | processed hold => cases hstage
  | @sent c' t hold hproc =>
    obtain rfl := TaskStage.completing.inj hstage
    rw [hs', hsent]
    refine ⟨List.mem_append_right _ (List.mem_singleton.mpr rfl), ?_⟩
    cases hdb with
    | @completeSent i t' _ ht' hstep =>
      obtain rfl := Option.some.inj (hold.symm.trans ht')
      obtain rfl := Option.some.inj hstep
      exact ⟨.running (.begun s.db.clock), List.getElem?_concat_length⟩
    | alone hlocal => cases hlocal

include h hdb hb hext hs' in
theorem claims_step {x : ClaimedEvent (Json Token)} (hx : x ∈ w'.claims) :
    ∃ (c : ℕ) (call : Call), s'.db.calls[c]? = some call ∧ call.isReturned = true ∧
      x ∈ call.claimedEvents := by
  rcases h.claims hx with hold | ⟨xs, rfl, hmem⟩
  · exact (hb.mono hext).claims x hold
  · cases hdb with
    | @claimReturned c args grants _ _ hphase hc hclaims hstep =>
      have hcall : s'.db.calls[c]? = some (.claim args (.returned grants)) := by
        rw [hs']
        exact Database.step_signal hc rfl hstep
      refine ⟨c, _, hcall, rfl, ?_⟩
      have hevents : (Call.claim args (.returned grants)).claimedEvents = xs := by
        unfold Call.claimedEvents
        simp only [Call.grants, Progress.answer, Option.getD_some, hclaims]
      rwa [hevents]
    | alone hlocal => cases hlocal

end Worker

variable {s s' : System} {a : SystemAct}

/-- The completion was sent by a task of its owner whose processor had succeeded on the event. -/
def SentBy (s : System) (c : ℕ) (args : CompleteArgs) : Prop :=
  ∃ (k i : ℕ) (w : Worker), ⟨c, k, i⟩ ∈ s.sent ∧ ⟨k, i, args.id⟩ ∈ s.done ∧
    s.workers[k]? = some w ∧ w.owner = args.owner

theorem SentBy.mono {c : ℕ} {args : CompleteArgs} (h : s.SentBy c args) (hext : s.Extends s') :
    s'.SentBy c args := by
  obtain ⟨k, i, w, hsent, hdone, hw, howner⟩ := h
  obtain ⟨w', hw', howner'⟩ := hext.workers k w hw
  exact ⟨k, i, w', hext.sent hsent, hext.done hdone, hw', howner'.trans howner⟩

structure Consistent (s : System) : Prop where
  workers : ∀ (k : ℕ) (w : Worker), s.workers[k]? = some w → w.Backed s k
  senders : ∀ (c : ℕ) (args : CompleteArgs) (p : Progress CompleteStage Bool),
    s.db.calls[c]? = some (.complete args p) → s.SentBy c args

theorem workers_step (h : Steps s a s') (hs : s.Consistent) {k : ℕ} {w : Worker}
    (hk : s'.workers[k]? = some w) : w.Backed s' k := by
  have hext := h.extends
  cases h with
  | store hown hstep => exact (hs.workers k w hk).mono hext
  | @start owner config hpos =>
    rw [List.getElem?_append] at hk
    split_ifs at hk with hlt
    · exact (hs.workers k w hk).mono hext
    · rw [List.getElem?_singleton] at hk
      split_ifs at hk
      obtain rfl := Option.some.inj hk
      have hnil : ∀ t, t ∉ (Worker.start owner config).tasks := fun t => List.not_mem_nil
      exact ⟨fun t ht => absurd ht (hnil t), fun t ht => absurd ht (hnil t),
        fun x hx => absurd hx List.not_mem_nil⟩
  | @worker i b w₀ w₁ db hw hlive hstep hdb =>
    rw [List.getElem?_set] at hk
    split_ifs at hk with hik hlt
    · subst hik
      obtain rfl := Option.some.inj hk
      have hb := hs.workers i w₀ hw
      exact ⟨fun t ht hp => recorded_step hstep hb hext rfl ht hp,
        fun t ht c hc => completing_step hstep hdb hb hext rfl rfl ht hc,
        fun x hx => claims_step hstep hdb hb hext rfl hx⟩
    · exact (hs.workers k w hk).mono hext

theorem senders_step (h : Steps s a s') (hs : s.Consistent) {c : ℕ} {args : CompleteArgs}
    {p : Progress CompleteStage Bool} (hc : s'.db.calls[c]? = some (.complete args p)) :
    s'.SentBy c args := by
  have hext := h.extends
  -- the calls that are new have to be those of tasks past their processor
  have hold : ∀ call : Call, s.db.calls[c]? = some call → call.request = .complete args →
      s'.SentBy c args := by
    intro call hcall hreq
    obtain ⟨p₀, rfl⟩ := Call.of_request_complete hreq
    exact (hs.senders c args p₀ hcall).mono hext
  cases h with
  | store hown hstep =>
    rcases (Database.step_spec hstep).call_origin hc with ⟨call, hcall, hreq⟩ | ⟨-, rfl⟩
    · exact hold call hcall hreq
    · cases hown
  | start hpos => exact hold _ hc rfl
  | @worker k b w w' db hw hlive hstep hdb =>
    cases hdb with
    | alone hlocal => exact hold _ hc rfl
    | @completeSent i t _ ht hact =>
      rcases (Database.step_spec hact).call_origin hc with ⟨call, hcall, hreq⟩ | ⟨rfl, hreq⟩
      · exact hold call hcall hreq
      · obtain rfl := Request.complete.inj (Act.begin.inj hreq)
        cases hstep with
        | sent ht' hstage =>
          obtain rfl := Option.some.inj (ht.symm.trans ht')
          have hdone := (hs.workers k w hw).recorded t (Worker.task_mem ht)
            (by simp [Task.isProcessed, hstage])
          rw [Worker.task_id ht] at hdone
          obtain ⟨w₁, hw₁, howner⟩ := hext.workers k w hw
          exact ⟨k, i, w₁, List.mem_append_right _ (List.mem_singleton.mpr rfl),
            hext.done hdone, hw₁, howner⟩
    | claimSent hact =>
      rcases (Database.step_spec hact).call_origin hc with ⟨call, hcall, hreq⟩ | ⟨-, hreq⟩
      · exact hold call hcall hreq
      · cases hreq
    | claimReturned _ _ _ hact | completeReturned _ _ _ hact =>
      rcases (Database.step_spec hact).call_origin hc with ⟨call, hcall, hreq⟩ | ⟨-, hreq⟩
      · exact hold call hcall hreq
      · cases hreq

theorem Reachable.consistent (h : s.Reachable) : s.Consistent := by
  refine h.invariant (fun clock => ⟨fun k w hk => ?_, fun c args p hc => ?_⟩)
    fun t a t' _ ht hstep => ?_
  · simp [empty] at hk
  · simp [empty, Database.empty] at hc
  · exact ⟨fun k w hk => workers_step hstep ht hk, fun c args p hc => senders_step hstep ht hc⟩

/-! ## The count -/

/-- The processed events that the workers have counted. -/
def processed (s : System) : ℕ := (s.workers.map Worker.processed).sum

theorem counted_step (h : Steps s a s') (hs : s.processed ≤ s.db.completedCalls.card) :
    s'.processed ≤ s'.db.completedCalls.card := by
  have hsub := h.extends.carries.completedCalls
  have hle := hs.trans (Finset.card_le_card hsub)
  cases h with
  | store hown hstep => exact hle
  | @start owner config hpos =>
    have hnew : ((s.workers ++ [Worker.start owner config]).map Worker.processed).sum =
        (s.workers.map Worker.processed).sum := by
      rw [List.map_append, List.sum_append]
      rfl
    exact hnew.trans_le hle
  | @worker k b w w' db hw hlive hstep hdb =>
    have hsum : ((s.workers.set k w').map Worker.processed).sum + w.processed =
        (s.workers.map Worker.processed).sum + w'.processed := Table.sum_map_set hw
    rcases hstep.processed with hsame | ⟨i, rfl, hone⟩
    · rw [hsame] at hsum
      exact (Nat.add_right_cancel hsum).trans_le hle
    · -- the call that told the worker `true` was not counted before
      cases hdb with
      | @completeReturned _ c t _ _ ht hstage hc hact =>
        have hold : c ∉ s.db.completedCalls := by
          intro hmem
          obtain ⟨args, hargs⟩ := Database.mem_completedCalls.mp hmem
          cases Option.some.inj (hc.symm.trans hargs)
        have hnew : c ∈ db.completedCalls :=
          Database.mem_completedCalls.mpr ⟨_, Database.step_signal hc rfl hact⟩
        have hcard := Finset.card_le_card (Finset.insert_subset hnew hsub)
        rw [Finset.card_insert_of_notMem hold] at hcard
        calc ((s.workers.set k w').map Worker.processed).sum
            = s.processed + 1 := by unfold processed; omega
          _ ≤ s.db.completedCalls.card + 1 := Nat.succ_le_succ hs
          _ ≤ db.completedCalls.card := hcard
      | alone hlocal => cases hlocal

theorem Reachable.counted (h : s.Reachable) : s.processed ≤ s.db.completedCalls.card :=
  h.invariant (fun _ => Nat.zero_le _) fun _ _ _ _ ht hstep => counted_step hstep ht

end System

end PulseStream
