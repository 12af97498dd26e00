import Mathlib

/-!
# Codes that preserve the lexicographic order

A code that maps smaller letters to words that are smaller at their first difference (`Below`) can
be applied letter by letter without changing the order of lists (`flatMap_strictMono`).
-/

namespace LexCode

variable {α κ : Type*}

/-- The words differ somewhere, and where they first do, the first one is smaller. -/
inductive Below [LT κ] : List κ → List κ → Prop
  | head {x y : κ} (h : x < y) (u v : List κ) : Below (x :: u) (y :: v)
  | tail (x : κ) {u v : List κ} (h : Below u v) : Below (x :: u) (x :: v)

variable [LinearOrder κ]

theorem Below.of_le {x y : κ} {u v : List κ} (hle : x ≤ y) (h : x = y → Below u v) :
    Below (x :: u) (y :: v) := by
  rcases hle.lt_or_eq with hlt | rfl
  · exact .head hlt u v
  · exact .tail x (h rfl)

theorem Below.append_lt {u v : List κ} (h : Below u v) (s t : List κ) : u ++ s < v ++ t := by
  induction h with
  | head h u v => exact List.cons_lt_cons_iff.mpr (.inl h)
  | tail x h ih => exact List.cons_lt_cons_iff.mpr (.inr ⟨rfl, ih⟩)

theorem append_lt_append_left (u : List κ) {s t : List κ} (h : s < t) : u ++ s < u ++ t := by
  induction u with
  | nil => exact h
  | cons x u ih => exact List.cons_lt_cons_iff.mpr (.inr ⟨rfl, ih⟩)

theorem flatMap_strictMono [LinearOrder α] {code : α → List κ}
    (hcode : ∀ a b, a < b → Below (code a) (code b)) (hne : ∀ a, code a ≠ []) :
    StrictMono fun l : List α => l.flatMap code := by
  intro l
  induction l with
  | nil =>
    intro l' hlt
    cases l' with
    | nil => exact absurd hlt (lt_irrefl _)
    | cons b l' =>
      obtain ⟨x, u, hx⟩ := List.exists_cons_of_ne_nil (hne b)
      show [] < code b ++ l'.flatMap code
      rw [hx]
      exact List.nil_lt_cons _ _
  | cons a l ih =>
    intro l' hlt
    cases l' with
    | nil => exact absurd hlt (List.not_lt_nil _)
    | cons b l' =>
      show code a ++ l.flatMap code < code b ++ l'.flatMap code
      rcases List.cons_lt_cons_iff.mp hlt with hab | ⟨rfl, htail⟩
      · exact (hcode a b hab).append_lt _ _
      · exact append_lt_append_left _ (ih htail)

end LexCode
