import PulseStream.Store.Steps

/-!
# The trail of a row

What an event is for: it is admitted once, delivered under leases that follow each other, and
completed at most once. `Trail ws r` says that the row versions `ws`, in commit order, are such a
life and that `r` is where it has come to. The rest of the module reads off a trail what the
schema only promises in part: `Trail.wellFormed`, `Trail.attempts`, `Trail.leases`,
`Trail.completions`.
-/

namespace PulseStream

/-- One event's life: an insert, then claims of the claimable row and completions by its owner. -/
inductive Trail : List Write → Row → Prop
  | insert {c : ℕ} {args : AdmitArgs} {now : Timestamp} {row : Row}
      (h : args.checkedRow now = .ok row) : Trail [⟨c, .insert, row⟩] row
  | claim {ws : List Write} {r : Row} (c : ℕ) {args : ClaimArgs} {now : Timestamp}
      (h : Trail ws r) (hclaim : r.Claimable now) (hroom : r.deliveryAttempts < integerMax) :
      Trail (ws ++ [args.write c now r]) (r.claimed args.owner now args.lease)
  | complete {ws : List Write} {r : Row} (c : ℕ) {owner : WorkerId} {now : Timestamp}
      (h : Trail ws r) (howned : r.OwnedBy owner) :
      Trail (ws ++ [⟨c, .complete owner now, r.completed now⟩]) (r.completed now)

/-! ## The lifecycle columns -/

/-- What every row of the table satisfies; the link between `PENDING` and the attempts is in no
CHECK constraint. -/
structure Row.WellFormed (r : Row) : Prop where
  checks : r.Checks
  pending_attempts : r.status = .pending → r.deliveryAttempts = 0
  attempts_le : r.deliveryAttempts ≤ integerMax

namespace Row

variable {r : Row} {owner : WorkerId} {now : Timestamp} {lease : ℕ}

theorem Claimable.not_processed (h : r.Claimable now) : r.status ≠ .processed := by
  rcases h with hp | hp
  · rw [hp]
    decide
  · rw [hp.1]
    decide

theorem WellFormed.claimed_checks (h : r.WellFormed) (hclaim : r.Claimable now) :
    (r.claimed owner now lease).Checks := by
  obtain ⟨hcol, hlife⟩ := h.checks
  have hnone : r.processedAt = none := by
    rcases hlife with hp | hp | hp
    · exact hp.2.2.2.2
    · exact hp.2.2.2.2.1
    · exact absurd hp.1 hclaim.not_processed
  obtain ⟨h₁, h₂, h₃, h₄, h₅, h₆⟩ := hcol
  have hpos : 0 ≤ r.deliveryAttempts + 1 := by omega
  exact ⟨⟨h₁, h₂, h₃, h₄, h₅, hpos⟩,
    .inr (.inl ⟨rfl, by simp [claimed], by simp [claimed], by simp [claimed], hnone,
      show 1 ≤ r.deliveryAttempts + 1 by omega⟩)⟩

theorem WellFormed.completed_checks (h : r.WellFormed) (howned : r.OwnedBy owner) :
    (r.completed now).Checks := by
  obtain ⟨hcol, hlife⟩ := h.checks
  have hpos : 1 ≤ r.deliveryAttempts := by
    rcases hlife with hp | hp | hp
    · exact absurd (hp.1.symm.trans howned.1) (by decide)
    · exact hp.2.2.2.2.2
    · exact hp.2.2.2.2
  exact ⟨hcol, .inr (.inr ⟨rfl, rfl, rfl, by simp [completed], hpos⟩)⟩

theorem WellFormed.attempts_nonneg (h : r.WellFormed) : 0 ≤ r.deliveryAttempts :=
  h.checks.1.2.2.2.2.2

theorem WellFormed.attempts_pos (h : r.WellFormed) (hp : r.status ≠ .pending) :
    1 ≤ r.deliveryAttempts := by
  rcases h.checks.2 with hl | hl | hl
  · exact absurd hl.1 hp
  · exact hl.2.2.2.2.2
  · exact hl.2.2.2.2

theorem WellFormed.under_lease (h : r.WellFormed) (hp : r.status = .processing) :
    ∃ l, r.leaseExpiresAt = some l := by
  rcases h.checks.2 with hl | hl | hl
  · exact absurd (hl.1.symm.trans hp) (by decide)
  · exact Option.ne_none_iff_exists'.mp hl.2.2.2.1
  · exact absurd (hl.1.symm.trans hp) (by decide)

theorem WellFormed.lease_passed (h : r.WellFormed) (hclaim : r.Claimable now) {l : Timestamp}
    (hl : r.leaseExpiresAt = some l) : l ≤ now := by
  rcases hclaim with hp | ⟨-, l', hl', hexp⟩
  · rcases h.checks.2 with hlife | hlife | hlife
    · exact absurd (hlife.2.2.2.1.symm.trans hl) (by simp)
    · exact absurd (hlife.1.symm.trans hp) (by decide)
    · exact absurd (hlife.1.symm.trans hp) (by decide)
  · obtain rfl := Option.some.inj (hl.symm.trans hl')
    exact hexp

end Row

namespace Trail

variable {ws : List Write} {r : Row}

theorem wellFormed (h : Trail ws r) : r.WellFormed := by
  induction h with
  | insert h =>
    obtain ⟨-, hchecks, payload, -, rfl⟩ := AdmitArgs.checkedRow_eq_ok.mp h
    exact ⟨hchecks, fun _ => rfl, show (0 : ℤ) ≤ integerMax by decide⟩
  | claim c h hclaim hroom ih =>
    refine ⟨ih.claimed_checks hclaim, nofun, ?_⟩
    show _ + 1 ≤ integerMax
    omega
  | complete c h howned ih =>
    exact ⟨ih.completed_checks howned, nofun, ih.attempts_le⟩

theorem content (h : Trail ws r) : ∀ w ∈ ws, w.row.toContent = r.toContent := by
  induction h with
  | insert h => simp
  | claim c h hclaim hroom ih | complete c h howned ih =>
    intro w hw
    rcases List.mem_append.mp hw with hw | hw
    · exact ih w hw
    · obtain rfl := List.mem_singleton.mp hw
      rfl

theorem created (h : Trail ws r) :
    ∃ (c : ℕ) (args : AdmitArgs) (now : Timestamp) (row : Row) (rest : List Write),
      args.checkedRow now = .ok row ∧ ws = ⟨c, .insert, row⟩ :: rest ∧
        ∀ w ∈ rest, w.op ≠ .insert := by
  induction h with
  | @insert c args now row h => exact ⟨c, args, now, row, [], h, rfl, by simp⟩
  | claim c h hclaim hroom ih | complete c h howned ih =>
    obtain ⟨c₀, args, now, row, rest, hrow, rfl, hrest⟩ := ih
    refine ⟨c₀, args, now, row, rest ++ [_], hrow, rfl, fun w hw => ?_⟩
    rcases List.mem_append.mp hw with hw | hw
    · exact hrest w hw
    · obtain rfl := List.mem_singleton.mp hw
      exact fun hop => by cases hop

end Trail

/-! ## Attempts, leases and completions along a trail -/

namespace Write

/-- The attempt number a claim granted. -/
def attempt (w : Write) : Option ℤ :=
  match w.op with
  | .claim .. => some w.row.deliveryAttempts
  | _ => none

/-- The transaction time of a claim. -/
def claimedAt (w : Write) : Option Timestamp :=
  match w.op with
  | .claim _ now _ _ => some now
  | _ => none

/-- The `lease_expires_at` a claim wrote. -/
def leaseEnd (w : Write) : Option Timestamp :=
  match w.op with
  | .claim .. => w.row.leaseExpiresAt
  | _ => none

/-- The worker a claim was granted to. -/
def claimedBy (w : Write) : Option WorkerId :=
  match w.op with
  | .claim owner .. => some owner
  | _ => none

def isComplete (w : Write) : Bool :=
  match w.op with
  | .complete .. => true
  | _ => false

end Write

namespace Trail

variable {ws : List Write} {r : Row}

/-- **Attempts.** The claims carry the numbers `1, …, k` in commit order, where `k` is the row's
`delivery_attempts`. -/
theorem attempts (h : Trail ws r) :
    ws.filterMap Write.attempt = (List.range' 1 r.deliveryAttempts.toNat).map Int.ofNat := by
  induction h with
  | insert h =>
    obtain ⟨-, -, payload, -, rfl⟩ := AdmitArgs.checkedRow_eq_ok.mp h
    rfl
  | @claim ws r c args now h hclaim hroom ih =>
    have hnonneg := h.wellFormed.attempts_nonneg
    have hsucc : (r.deliveryAttempts + 1).toNat = r.deliveryAttempts.toNat + 1 := by omega
    have hlast : Int.ofNat (1 + r.deliveryAttempts.toNat) = r.deliveryAttempts + 1 := by
      simp only [Int.ofNat_eq_natCast]
      omega
    show _ = (List.range' 1 (r.deliveryAttempts + 1).toNat).map Int.ofNat
    rw [List.filterMap_append, ih, hsucc, List.range'_1_concat, List.map_append, List.map_singleton,
      hlast]
    rfl
  | complete c h howned ih =>
    rw [List.filterMap_append, ih]
    exact List.append_nil _

theorem held (h : Trail ws r) {owner : WorkerId} (howned : r.OwnedBy owner) :
    ∃ w ∈ ws, w.row = r ∧ w.claimedBy = some owner := by
  cases h with
  | insert h =>
    obtain ⟨-, -, payload, -, rfl⟩ := AdmitArgs.checkedRow_eq_ok.mp h
    cases howned.1
  | claim c h hclaim hroom =>
    exact ⟨_, List.mem_append_right _ (List.mem_singleton.mpr rfl), rfl, howned.2⟩
  | complete c h _ => cases howned.1

theorem reclaimed (h : Trail ws r) :
    ∀ w ∈ ws, ∀ owner now lease previous, w.op = .claim owner now lease previous →
      1 ≤ w.row.deliveryAttempts ∧ w.row.deliveryAttempts ≤ integerMax ∧
        (previous = .processing ↔ 2 ≤ w.row.deliveryAttempts) := by
  induction h with
  | insert h =>
    intro w hw owner now lease previous hop
    obtain rfl := List.mem_singleton.mp hw
    cases hop
  | @claim ws r c args now₀ h hclaim hroom ih =>
    intro w hw owner now lease previous hop
    rcases List.mem_append.mp hw with hw | hw
    · exact ih w hw owner now lease previous hop
    · obtain rfl := List.mem_singleton.mp hw
      cases hop
      have hwf := h.wellFormed
      have hnonneg := hwf.attempts_nonneg
      show 1 ≤ r.deliveryAttempts + 1 ∧ r.deliveryAttempts + 1 ≤ integerMax ∧
        (r.status = .processing ↔ 2 ≤ r.deliveryAttempts + 1)
      refine ⟨by omega, by omega, ?_⟩
      rcases hclaim with hp | hp
      · have hzero := hwf.pending_attempts hp
        rw [hp, hzero]
        decide
      · have hpos := hwf.attempts_pos (by rw [hp.1]; decide)
        exact ⟨fun _ => by omega, fun _ => hp.1⟩
  | complete c h howned ih =>
    intro w hw owner now lease previous hop
    rcases List.mem_append.mp hw with hw | hw
    · exact ih w hw owner now lease previous hop
    · obtain rfl := List.mem_singleton.mp hw
      cases hop

theorem lease_current (h : Trail ws r) :
    ∀ w ∈ ws, ∀ e ∈ w.leaseEnd, r.status = .processed ∨ ∃ l ∈ r.leaseExpiresAt, e ≤ l := by
  induction h with
  | insert h =>
    intro w hw e he
    obtain rfl := List.mem_singleton.mp hw
    cases he
  | @claim ws r c args now h hclaim hroom ih =>
    intro w hw e he
    refine .inr ⟨now + args.lease, rfl, ?_⟩
    rcases List.mem_append.mp hw with hw | hw
    · -- the earlier lease had expired when this claim was made
      rcases ih w hw e he with hdone | ⟨l, hl, hel⟩
      · exact absurd hdone hclaim.not_processed
      · have hpast := h.wellFormed.lease_passed hclaim hl
        have hlease := Int.natCast_nonneg args.lease
        linarith
    · obtain rfl := List.mem_singleton.mp hw
      obtain rfl := Option.some.inj he
      exact le_rfl
  | complete c h howned ih => exact fun _ _ _ _ => .inl rfl

theorem expired (h : Trail ws r) {now : Timestamp} (hclaim : r.Claimable now) :
    ∀ w ∈ ws, ∀ e ∈ w.leaseEnd, e ≤ now := by
  intro w hw e he
  rcases h.lease_current w hw e he with hdone | ⟨l, hl, hel⟩
  · exact absurd hdone hclaim.not_processed
  · exact hel.trans (h.wellFormed.lease_passed hclaim hl)

theorem attempt_le (h : Trail ws r) : ∀ w ∈ ws, ∀ n ∈ w.attempt, n ≤ r.deliveryAttempts := by
  intro w hw n hn
  have hmem : n ∈ ws.filterMap Write.attempt := List.mem_filterMap.mpr ⟨w, hw, hn⟩
  rw [h.attempts] at hmem
  obtain ⟨k, hk, rfl⟩ := List.mem_map.mp hmem
  obtain ⟨i, hi, rfl⟩ := List.mem_range'.mp hk
  simp only [Int.ofNat_eq_natCast]
  omega

theorem attempt_inj (h : Trail ws r) :
    ∀ w ∈ ws, ∀ w' ∈ ws, ∀ n ∈ w.attempt, n ∈ w'.attempt → w = w' := by
  induction h with
  | insert h =>
    intro w hw w' hw' _ _ _
    rw [List.mem_singleton.mp hw, List.mem_singleton.mp hw']
  | @claim ws r c args now h hclaim hroom ih =>
    -- an earlier claim cannot have the new number
    have hnew : ∀ w ∈ ws, r.deliveryAttempts + 1 ∉ w.attempt := fun w hw hn =>
      absurd (h.attempt_le w hw _ hn) (by omega)
    intro w hw w' hw' n hn hn'
    rcases List.mem_append.mp hw with hw | hw <;> rcases List.mem_append.mp hw' with hw' | hw'
    · exact ih w hw w' hw' n hn hn'
    · obtain rfl := List.mem_singleton.mp hw'
      obtain rfl := Option.some.inj hn'
      exact absurd hn (hnew w hw)
    · obtain rfl := List.mem_singleton.mp hw
      obtain rfl := Option.some.inj hn
      exact absurd hn' (hnew w' hw')
    · rw [List.mem_singleton.mp hw, List.mem_singleton.mp hw']
  | complete c h howned ih =>
    intro w hw w' hw' n hn hn'
    rcases List.mem_append.mp hw with hw | hw
    · rcases List.mem_append.mp hw' with hw' | hw'
      · exact ih w hw w' hw' n hn hn'
      · obtain rfl := List.mem_singleton.mp hw'
        cases hn'
    · obtain rfl := List.mem_singleton.mp hw
      cases hn

theorem lease_of_attempt (h : Trail ws r) :
    ∀ w ∈ ws, ∀ n ∈ w.attempt, ∃ e, w.leaseEnd = some e := by
  induction h with
  | insert h =>
    intro w hw n hn
    obtain rfl := List.mem_singleton.mp hw
    cases hn
  | claim c h hclaim hroom ih | complete c h howned ih =>
    intro w hw n hn
    rcases List.mem_append.mp hw with hw | hw
    · exact ih w hw n hn
    · obtain rfl := List.mem_singleton.mp hw
      first
      | exact ⟨_, rfl⟩
      | cases hn

/-- **Leases.** A later claim is made no earlier than the lease of an earlier one ends. -/
theorem leases (h : Trail ws r) :
    ∀ w ∈ ws, ∀ w' ∈ ws, ∀ n ∈ w.attempt, ∀ m ∈ w'.attempt, n < m →
      ∃ e t, w.leaseEnd = some e ∧ w'.claimedAt = some t ∧ e ≤ t := by
  induction h with
  | insert h =>
    intro w hw w' hw' n hn
    obtain rfl := List.mem_singleton.mp hw
    cases hn
  | @claim ws r c args now h hclaim hroom ih =>
    intro w hw w' hw' n hn m hm hlt
    rcases List.mem_append.mp hw with hw | hw
    · rcases List.mem_append.mp hw' with hw' | hw'
      · exact ih w hw w' hw' n hn m hm hlt
      · obtain rfl := List.mem_singleton.mp hw'
        obtain ⟨e, he⟩ := h.lease_of_attempt w hw n hn
        exact ⟨e, now, he, rfl, h.expired hclaim w hw e he⟩
    · -- the newest claim has the largest number
      obtain rfl := List.mem_singleton.mp hw
      obtain rfl := Option.some.inj hn
      have hle : m ≤ r.deliveryAttempts + 1 :=
        (Trail.claim c h hclaim hroom).attempt_le w' hw' m hm
      exact absurd hlt (not_lt.mpr hle)
  | complete c h howned ih =>
    intro w hw w' hw' n hn m hm hlt
    rcases List.mem_append.mp hw with hw | hw
    · rcases List.mem_append.mp hw' with hw' | hw'
      · exact ih w hw w' hw' n hn m hm hlt
      · obtain rfl := List.mem_singleton.mp hw'
        cases hm
    · obtain rfl := List.mem_singleton.mp hw
      cases hn

/-- **Completions.** A row has been completed once if it is processed, and never otherwise. -/
theorem completions (h : Trail ws r) :
    ws.countP Write.isComplete = if r.status = .processed then 1 else 0 := by
  induction h with
  | insert h =>
    obtain ⟨-, -, payload, -, rfl⟩ := AdmitArgs.checkedRow_eq_ok.mp h
    rfl
  | @claim ws r c args now h hclaim hroom ih =>
    rw [List.countP_append, ih, if_neg hclaim.not_processed]
    rfl
  | complete c h howned ih =>
    rw [List.countP_append, ih, howned.1]
    rfl

theorem complete_unique (h : Trail ws r) {w w' : Write} (hw : w ∈ ws) (hw' : w' ∈ ws)
    (hc : w.isComplete = true) (hc' : w'.isComplete = true) : w = w' := by
  have hmem : w ∈ ws.filter Write.isComplete := List.mem_filter.mpr ⟨hw, hc⟩
  have hmem' : w' ∈ ws.filter Write.isComplete := List.mem_filter.mpr ⟨hw', hc'⟩
  have hle : (ws.filter Write.isComplete).length ≤ 1 := by
    rw [← List.countP_eq_length_filter, h.completions]
    split_ifs <;> decide
  have hone : (ws.filter Write.isComplete).length = 1 := by
    have hpos := List.length_pos_of_mem hmem
    omega
  obtain ⟨x, hx⟩ := List.length_eq_one_iff.mp hone
  rw [hx] at hmem hmem'
  exact (List.mem_singleton.mp hmem).trans (List.mem_singleton.mp hmem').symm

end Trail

end PulseStream
