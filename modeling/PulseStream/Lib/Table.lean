import Mathlib

/-!
# Tables with a key

A table is a list of rows of which a key column is unique. `lookup` finds a row by its key and
`put` replaces the rows that have a new version, in place.
-/

namespace Table

variable {R K : Type*} [DecidableEq K] (key : R → K)

/-- The first row with the key. -/
def lookup (k : K) (rows : List R) : Option R := rows.find? fun r => key r = k

/-- Every row that has a new version of the same key is replaced by it. -/
def put (new rows : List R) : List R := rows.map fun r => (lookup key (key r) new).getD r

variable {key} {k : K} {r r' : R} {new rows : List R}

theorem lookup_mem (h : lookup key k rows = some r) : r ∈ rows := List.mem_of_find?_eq_some h

theorem lookup_key (h : lookup key k rows = some r) : key r = k := by
  have hk := List.find?_some h
  simpa using hk

theorem lookup_eq_none : lookup key k rows = none ↔ ∀ r ∈ rows, key r ≠ k := by
  simp [lookup]

theorem lookup_of_mem (hn : (rows.map key).Nodup) (hr : r ∈ rows) :
    lookup key (key r) rows = some r := by
  cases h : lookup key (key r) rows with
  | none => exact absurd rfl (lookup_eq_none.mp h r hr)
  | some r' => rw [List.inj_on_of_nodup_map hn (lookup_mem h) hr (lookup_key h)]

theorem filter_key (hn : (rows.map key).Nodup) (hr : r ∈ rows) :
    rows.filter (fun x => key x = key r) = [r] := by
  induction rows with
  | nil => cases hr
  | cons x rows ih =>
    obtain ⟨hx, hn⟩ := List.nodup_cons.mp hn
    rcases List.mem_cons.mp hr with rfl | hr
    · have hrest : rows.filter (fun x => key x = key r) = [] := by
        refine List.filter_eq_nil_iff.mpr fun y hy => ?_
        have hne : key y ≠ key r := fun hk => hx (hk ▸ List.mem_map_of_mem hy)
        simpa using hne
      rw [List.filter_cons_of_pos (by simp), hrest]
    · have hne : key x ≠ key r := fun hk => hx (hk ▸ List.mem_map_of_mem hr)
      rw [List.filter_cons_of_neg (by simpa using hne), ih hn hr]

theorem getD_lookup_key : key ((lookup key (key r) new).getD r) = key r := by
  cases h : lookup key (key r) new with
  | none => rfl
  | some r' => exact lookup_key h

theorem lookup_map {R' : Type*} {f : R' → R} {rows : List R'} :
    lookup key k (rows.map f) = (lookup (fun r => key (f r)) k rows).map f := by
  unfold lookup
  rw [List.find?_map]
  rfl

theorem lookup_put (h : ∀ n ∈ new, ∃ r ∈ rows, key r = key n) :
    lookup key k (put key new rows) = (lookup key k new).or (lookup key k rows) := by
  unfold put
  rw [lookup_map]
  simp only [getD_lookup_key]
  show Option.map _ (lookup key k rows) = _
  cases hr : lookup key k rows with
  | none =>
    have hnone : lookup key k new = none := by
      refine lookup_eq_none.mpr fun n hn hk => ?_
      obtain ⟨r, hmem, hkey⟩ := h n hn
      exact lookup_eq_none.mp hr r hmem (hkey.trans hk)
    rw [hnone]
    rfl
  | some r =>
    rw [Option.map_some, lookup_key hr]
    cases lookup key k new <;> rfl

theorem map_put {B : Type*} {f : R → B}
    (h : ∀ n ∈ new, ∀ r ∈ rows, key n = key r → f n = f r) :
    (put key new rows).map f = rows.map f := by
  unfold put
  rw [List.map_map]
  refine List.map_congr_left fun r hr => ?_
  show f ((lookup key (key r) new).getD r) = f r
  cases hl : lookup key (key r) new with
  | none => rfl
  | some n => exact h n (lookup_mem hl) r hr (lookup_key hl)

/-- What a table holds after a `put`: a new version, or an old row that has none. -/
theorem mem_put (h : r' ∈ put key new rows) :
    ∃ r ∈ rows, key r = key r' ∧ (r' ∈ new ∨ (r' = r ∧ ∀ n ∈ new, key n ≠ key r)) := by
  obtain ⟨r, hr, rfl⟩ := List.mem_map.mp h
  refine ⟨r, hr, getD_lookup_key.symm, ?_⟩
  cases hl : lookup key (key r) new with
  | none => exact .inr ⟨rfl, lookup_eq_none.mp hl⟩
  | some n => exact .inl (lookup_mem hl)

theorem mem_put_of_mem (hr : r ∈ rows) (h : ∀ n ∈ new, key n ≠ key r) : r ∈ put key new rows := by
  refine List.mem_map.mpr ⟨r, hr, ?_⟩
  rw [lookup_eq_none.mpr h]
  rfl

theorem new_mem_put (hn : (new.map key).Nodup) (hr : r ∈ rows) (h : r' ∈ new)
    (hk : key r' = key r) : r' ∈ put key new rows := by
  refine List.mem_map.mpr ⟨r, hr, ?_⟩
  rw [← hk, lookup_of_mem hn h]
  rfl

theorem put_put {r₁ r₂ : R} (hk : key r₁ = key r₂) :
    put key [r₂] (put key [r₁] rows) = put key [r₂] rows := by
  unfold put
  rw [List.map_map]
  refine List.map_congr_left fun r _ => ?_
  have hkey : key ((lookup key (key r) [r₁]).getD r) = key r := getD_lookup_key
  show (lookup key (key ((lookup key (key r) [r₁]).getD r)) [r₂]).getD _ = _
  rw [hkey]
  cases h : lookup key (key r) [r₂] with
  | some n => rfl
  | none =>
    have hne : key r₁ ≠ key r := hk ▸ lookup_eq_none.mp h r₂ (List.mem_singleton.mpr rfl)
    have hnone : lookup key (key r) [r₁] = none :=
      lookup_eq_none.mpr fun n hn => List.mem_singleton.mp hn ▸ hne
    show (lookup key (key r) [r₁]).getD r = r
    rw [hnone]
    rfl

theorem countP_eq_sum (p : R → Bool) (rows : List R) :
    rows.countP p = (rows.map fun r => if p r then 1 else 0).sum := by
  induction rows with
  | nil => rfl
  | cons r rows ih => rw [List.countP_cons, List.map_cons, List.sum_cons, ih, Nat.add_comm]

theorem sum_map_set {f : R → ℕ} {i : ℕ} (h : rows[i]? = some r) :
    ((rows.set i r').map f).sum + f r = (rows.map f).sum + f r' := by
  induction rows generalizing i with
  | nil => cases h
  | cons x rows ih =>
    cases i with
    | zero =>
      obtain rfl := Option.some.inj h
      simp only [List.set_cons_zero, List.map_cons, List.sum_cons]
      omega
    | succ i =>
      have hrest := ih (i := i) h
      simp only [List.set_cons_succ, List.map_cons, List.sum_cons]
      omega

theorem sum_map_filter_le {f : R → ℕ} {p : R → Bool} (rows : List R) :
    ((rows.filter p).map f).sum ≤ (rows.map f).sum := by
  induction rows with
  | nil => exact le_rfl
  | cons x rows ih =>
    rw [List.filter_cons]
    split_ifs <;> simp only [List.map_cons, List.sum_cons] <;> omega

theorem sum_map_filter_lt {f : R → ℕ} {p : R → Bool} (h : r ∈ rows) (hp : p r = false)
    (hf : 0 < f r) : ((rows.filter p).map f).sum < (rows.map f).sum := by
  induction rows with
  | nil => cases h
  | cons x rows ih =>
    rcases List.mem_cons.mp h with rfl | h
    · have hle := sum_map_filter_le (f := f) (p := p) rows
      rw [List.filter_cons_of_neg (by simp [hp]), List.map_cons, List.sum_cons]
      omega
    · have hlt := ih h
      rw [List.filter_cons]
      split_ifs <;> simp only [List.map_cons, List.sum_cons] <;> omega

/-- A weight falls when new versions weigh less than the rows they replace, and no other row weighs
more than before. -/
theorem sum_map_put_lt {f g : R → ℕ} (hnew : ∀ n ∈ new, ∀ r ∈ rows, key n = key r → f n < g r)
    (hold : ∀ r ∈ rows, (∀ n ∈ new, key n ≠ key r) → f r ≤ g r)
    (hsome : ∃ n ∈ new, ∃ r ∈ rows, key n = key r) :
    ((put key new rows).map f).sum < (rows.map g).sum := by
  have hcases : ∀ r ∈ rows, (∃ n ∈ new, key n = key r) ∧ f ((lookup key (key r) new).getD r) < g r ∨
      (∀ n ∈ new, key n ≠ key r) ∧ f ((lookup key (key r) new).getD r) ≤ g r := by
    intro r hr
    cases hl : lookup key (key r) new with
    | some n =>
      exact .inl ⟨⟨n, lookup_mem hl, lookup_key hl⟩, hnew n (lookup_mem hl) r hr (lookup_key hl)⟩
    | none => exact .inr ⟨lookup_eq_none.mp hl, hold r hr (lookup_eq_none.mp hl)⟩
  unfold put
  rw [List.map_map]
  refine List.sum_lt_sum _ _ (fun r hr => ?_) ?_
  · rcases hcases r hr with ⟨-, hlt⟩ | ⟨-, hle⟩
    · exact hlt.le
    · exact hle
  · obtain ⟨n, hn, r, hr, hk⟩ := hsome
    refine ⟨r, hr, ?_⟩
    rcases hcases r hr with ⟨-, hlt⟩ | ⟨hnone, -⟩
    · exact hlt
    · exact absurd hk (hnone n hn)

theorem sum_map_put_one {f : R → ℕ} (hn : (rows.map key).Nodup) (hr : r ∈ rows)
    (hk : key r' = key r) :
    ((put key [r'] rows).map f).sum + f r = (rows.map f).sum + f r' := by
  obtain ⟨i, hi⟩ := List.mem_iff_getElem?.mp hr
  have hset : put key [r'] rows = rows.set i r' := by
    refine List.ext_getElem? fun j => ?_
    rw [put, List.getElem?_map]
    by_cases hij : i = j
    · subst hij
      have hnew : lookup key (key r) [r'] = some r' := by
        simp [lookup, hk]
      rw [List.getElem?_set_self (List.getElem?_eq_some_iff.mp hi).1, hi, Option.map_some, hnew]
      rfl
    · rw [List.getElem?_set_ne hij]
      cases hj : rows[j]? with
      | none => rfl
      | some x =>
        have hne : ∀ n ∈ [r'], key n ≠ key x := by
          intro n hn' hkx
          rw [List.mem_singleton.mp hn', hk] at hkx
          have hlen := (List.getElem?_eq_some_iff.mp hi).1
          refine hij ((List.getElem?_inj (by simpa using hlen) hn).mp ?_)
          rw [List.getElem?_map, List.getElem?_map, hi, hj, Option.map_some, Option.map_some, hkx]
        rw [Option.map_some, lookup_eq_none.mpr hne]
        rfl
  rw [hset]
  exact sum_map_set hi

end Table
