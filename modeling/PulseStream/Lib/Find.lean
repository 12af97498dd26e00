import Mathlib

/-!
# The first occurrence of a pattern

`find` is the position of the first occurrence of a pattern in a list, like a search in a string. It
is characterised by the cut it makes (`find_eq_some`), and does not depend on what follows the
occurrence (`find_append`). A list is cut there in one way (`First.unique`).
-/

namespace Find

variable {α : Type*} {pat xs ys zs : List α} {i : ℕ}

/-- The position of the first occurrence of `pat`. -/
def find [BEq α] (pat xs : List α) : Option ℕ := xs.tails.findIdx? fun t => pat.isPrefixOf t

/-- `pat` occurs after `ys`, and not before. -/
def First (pat ys : List α) : Prop := ∀ k < ys.length, ¬ pat <+: (ys ++ pat).drop k

theorem prefix_drop_append {k : ℕ} (hk : k ≤ ys.length) :
    pat <+: (ys ++ pat ++ zs).drop k ↔ pat <+: (ys ++ pat).drop k := by
  have hlen : pat.length ≤ ((ys ++ pat).drop k).length := by
    rw [List.length_drop, List.length_append]
    omega
  rw [List.drop_append_of_le_length (by rw [List.length_append]; omega)]
  constructor
  · intro h
    exact List.prefix_of_prefix_length_le h (List.prefix_append _ _) hlen
  · intro h
    exact h.trans (List.prefix_append _ _)

theorem first_of_not_mem {a : α} (h : a ∉ ys) : First (a :: pat) ys := by
  rintro k hk ⟨zs, hzs⟩
  rw [List.drop_append_of_le_length hk.le] at hzs
  refine h (List.mem_of_mem_drop (i := k) ?_)
  cases hd : ys.drop k with
  | nil =>
    have hlen := congrArg List.length hd
    rw [List.length_drop, List.length_nil] at hlen
    omega
  | cons b bs =>
    rw [hd] at hzs
    injection hzs with hab
    rw [hab]
    exact List.mem_cons_self

theorem first_singleton {a : α} : First [a] ys ↔ a ∉ ys := by
  refine ⟨fun h hmem => ?_, first_of_not_mem⟩
  obtain ⟨us, vs, rfl⟩ := List.append_of_mem hmem
  refine h us.length (by simp) ⟨vs ++ [a], ?_⟩
  simp

variable [BEq α] [LawfulBEq α]

theorem find_eq_some_iff_drop :
    find pat xs = some i ↔ i ≤ xs.length ∧ pat <+: xs.drop i ∧ ∀ k < i, ¬ pat <+: xs.drop k := by
  unfold find
  rw [List.findIdx?_eq_some_iff_getElem]
  simp only [List.getElem_tails, List.isPrefixOf_iff_prefix, List.length_tails]
  constructor
  · rintro ⟨hlt, hi, hk⟩
    exact ⟨by omega, hi, hk⟩
  · rintro ⟨hle, hi, hk⟩
    exact ⟨by omega, hi, hk⟩

theorem find_append : find pat (ys ++ pat ++ zs) = some ys.length ↔ First pat ys := by
  rw [find_eq_some_iff_drop]
  constructor
  · rintro ⟨-, -, h⟩ k hk
    exact fun hp => h k hk ((prefix_drop_append hk.le).mpr hp)
  · intro h
    refine ⟨by simp only [List.length_append]; omega, ?_, ?_⟩
    · rw [List.append_assoc, List.drop_left]
      exact List.prefix_append _ _
    · exact fun k hk hp => h k hk ((prefix_drop_append hk.le).mp hp)

theorem find_eq_some :
    find pat xs = some i ↔ ∃ ys zs, xs = ys ++ pat ++ zs ∧ ys.length = i ∧ First pat ys := by
  constructor
  · intro h
    obtain ⟨hle, ⟨zs, hzs⟩, -⟩ := find_eq_some_iff_drop.mp h
    obtain ⟨ys, rfl, rfl⟩ : ∃ ys, xs = ys ++ pat ++ zs ∧ ys.length = i := by
      refine ⟨xs.take i, ?_, ?_⟩
      · rw [List.append_assoc, hzs, List.take_append_drop]
      · rw [List.length_take]
        omega
    exact ⟨ys, zs, rfl, rfl, find_append.mp h⟩
  · rintro ⟨ys, zs, rfl, rfl, h⟩
    exact find_append.mpr h

/-- A list is cut at the first occurrence in one way. -/
theorem First.unique {ys' zs' : List α} (h : First pat ys) (h' : First pat ys')
    (heq : ys ++ pat ++ zs = ys' ++ pat ++ zs') : ys = ys' ∧ zs = zs' := by
  have hfind : find pat (ys ++ pat ++ zs) = some ys.length := find_append.mpr h
  have hfind' : find pat (ys' ++ pat ++ zs') = some ys'.length := find_append.mpr h'
  rw [heq, hfind', Option.some.injEq] at hfind
  rw [List.append_assoc, List.append_assoc] at heq
  obtain ⟨hys, hrest⟩ := List.append_inj heq hfind.symm
  exact ⟨hys, List.append_cancel_left hrest⟩

theorem find_cons {a : α} (h : a ∉ ys) (zs : List α) :
    find [a] (ys ++ a :: zs) = some ys.length := by
  rw [show a :: zs = [a] ++ zs from rfl, ← List.append_assoc]
  exact find_append.mpr (first_singleton.mpr h)

theorem find_singleton_eq_none {a : α} : find [a] xs = none ↔ a ∉ xs := by
  constructor
  · intro h hmem
    obtain ⟨us, vs, rfl, hus⟩ := List.eq_append_cons_of_mem hmem
    rw [find_cons hus vs] at h
    cases h
  · intro h
    cases hf : find [a] xs with
    | none => rfl
    | some i =>
      obtain ⟨ys, zs, rfl, -, -⟩ := find_eq_some.mp hf
      exact absurd (by simp) h

end Find
