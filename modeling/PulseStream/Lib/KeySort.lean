import Mathlib

/-!
# Sorting by distinct keys

`keySort key l` sorts by a key in a linear order. When no key occurs twice the result depends only
on the elements, not on their order (`keySort_eq_of_perm`): every sort by that key, stable or not,
gives it (`keySort_unique`).
-/

namespace KeySort

variable {α β κ : Type*} [LinearOrder κ] (key : α → κ)

/-- The elements in increasing order of their keys. -/
def keySort (l : List α) : List α := l.insertionSort fun a b => key a ≤ key b

theorem keySort_perm (l : List α) : (keySort key l).Perm l := List.perm_insertionSort _ l

theorem mem_keySort {l : List α} {a : α} : a ∈ keySort key l ↔ a ∈ l := (keySort_perm key l).mem_iff

theorem keySort_sorted (l : List α) : (keySort key l).Pairwise fun a b => key a ≤ key b := by
  have htotal : Std.Total fun a b : α => key a ≤ key b := ⟨fun a b => le_total _ _⟩
  have htrans : IsTrans α fun a b => key a ≤ key b := ⟨fun a b c => le_trans⟩
  exact List.pairwise_insertionSort _ l

/-- A sorted arrangement of elements with distinct keys is the one `keySort` gives. -/
theorem keySort_unique {l l' : List α} (hnd : (l.map key).Nodup) (hp : l'.Perm l)
    (hs : l'.Pairwise fun a b => key a ≤ key b) : l' = keySort key l := by
  refine List.Perm.eq_of_pairwise ?_ hs (keySort_sorted key l) (hp.trans (keySort_perm key l).symm)
  intro a b ha hb hab hba
  exact List.inj_on_of_nodup_map hnd (hp.mem_iff.mp ha) ((mem_keySort key).mp hb)
    (le_antisymm hab hba)

theorem keySort_eq_of_perm {l l' : List α} (hnd : (l.map key).Nodup) (hp : l'.Perm l) :
    keySort key l' = keySort key l :=
  keySort_unique key hnd ((keySort_perm key l').trans hp) (keySort_sorted key l')

theorem keySort_map {key' : β → κ} (f : α → β) (hf : ∀ a, key' (f a) = key a) (l : List α) :
    keySort key' (l.map f) = (keySort key l).map f := by
  unfold keySort
  rw [List.map_insertionSort (fun a b => key a ≤ key b) (fun a b => key' a ≤ key' b)]
  intro a _ b _
  rw [hf a, hf b]

/-- In a sorted list, an element is among the first `k` if at most `k` elements come up to it. -/
theorem mem_take_of_sorted {l : List α} (hs : l.Pairwise fun a b => key a ≤ key b) {a : α}
    (ha : a ∈ l) {k : ℕ} (hk : (l.filter fun b => key b ≤ key a).length ≤ k) : a ∈ l.take k := by
  induction l generalizing k with
  | nil => cases ha
  | cons b l ih =>
    obtain ⟨hb, hs⟩ := List.pairwise_cons.mp hs
    have hle : key b ≤ key a := by
      rcases List.mem_cons.mp ha with rfl | ha
      · exact le_rfl
      · exact hb a ha
    rw [List.filter_cons_of_pos (by simpa using hle), List.length_cons] at hk
    obtain ⟨j, rfl⟩ : ∃ j, k = j + 1 := ⟨k - 1, by omega⟩
    rw [List.take_succ_cons]
    rcases List.mem_cons.mp ha with rfl | ha
    · exact List.mem_cons_self
    · exact List.mem_cons_of_mem _ (ih hs ha (by omega))

end KeySort
