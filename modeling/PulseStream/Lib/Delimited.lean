import Mathlib

/-!
# Unambiguous concatenation of encodings

`Splits stop enc a`: the code of `a` can be read off the front of a text, provided what follows is
empty or starts with a symbol in `stop`. With `stop := fun _ => True` nothing is asked of what
follows and the code is prefix-free. `splits_pair` and `splits_sepBy` are the two ways to build
such codes from parts; `span_inj` is the base case, a maximal run of symbols of one class.
-/

namespace Delimited

variable {α β γ : Type*}

/-- The text is empty or starts with a symbol in `stop`. -/
def Ends (stop : β → Prop) (r : List β) : Prop := ∀ b ∈ r.head?, stop b

@[simp] theorem ends_nil (stop : β → Prop) : Ends stop [] := by
  intro b hb
  cases hb

@[simp] theorem ends_cons (stop : β → Prop) (b : β) (r : List β) : Ends stop (b :: r) ↔ stop b := by
  simp [Ends]

/-- Two runs of symbols of a class, each followed by none of that class, are equal as soon as the
texts are. -/
theorem span_inj {p : β → Prop} {xs ys r r' : List β} (hx : ∀ x ∈ xs, p x) (hy : ∀ y ∈ ys, p y)
    (hr : Ends (fun b => ¬ p b) r) (hr' : Ends (fun b => ¬ p b) r')
    (h : xs ++ r = ys ++ r') : xs = ys ∧ r = r' := by
  induction xs generalizing ys with
  | nil =>
    cases ys with
    | nil => exact ⟨rfl, h⟩
    | cons y ys =>
      rw [List.nil_append, List.cons_append] at h
      rw [h, ends_cons] at hr
      exact absurd (hy y (by simp)) hr
  | cons x xs ih =>
    cases ys with
    | nil =>
      rw [List.nil_append, List.cons_append] at h
      rw [← h, ends_cons] at hr'
      exact absurd (hx x (by simp)) hr'
    | cons y ys =>
      obtain ⟨rfl, ht⟩ := List.cons.inj h
      obtain ⟨rfl, rfl⟩ := ih (fun z hz => hx z (by simp [hz])) (fun z hz => hy z (by simp [hz])) ht
      exact ⟨rfl, rfl⟩

/-- The code of `a` is read off the front of every text where a symbol of `stop` or nothing
follows it. -/
def Splits (stop : β → Prop) (enc : α → List β) (a : α) : Prop :=
  ∀ b r r', Ends stop r → Ends stop r' → enc a ++ r = enc b ++ r' → a = b ∧ r = r'

/-- A code that can be read whatever follows. -/
abbrev PrefixFree (enc : α → List β) : Prop := ∀ a, Splits (fun _ => True) enc a

theorem PrefixFree.inj {enc : α → List β} (h : PrefixFree enc) {a b : α} {r r' : List β}
    (he : enc a ++ r = enc b ++ r') : a = b ∧ r = r' :=
  h a b r r' (fun _ _ => trivial) (fun _ _ => trivial) he

theorem PrefixFree.of_inj {enc : α → List β}
    (h : ∀ a b r r', enc a ++ r = enc b ++ r' → a = b ∧ r = r') : PrefixFree enc :=
  fun a b r r' _ _ => h a b r r'

theorem splits_pair {stop : β → Prop} {enc₁ : α → List β} {enc₂ : γ → List β} {a : α} {c : γ}
    (h₁ : PrefixFree enc₁) (h₂ : Splits stop enc₂ c) :
    Splits stop (fun x : α × γ => enc₁ x.1 ++ enc₂ x.2) (a, c) := by
  rintro ⟨b, d⟩ r r' hr hr' h
  simp only [List.append_assoc] at h
  obtain ⟨rfl, hrest⟩ := h₁.inj h
  obtain ⟨rfl, rfl⟩ := h₂ d r r' hr hr' hrest
  exact ⟨rfl, rfl⟩

theorem prefixFree_closed {enc : α → List β} (close : β) (h : PrefixFree enc)
    (hne : ∀ a, enc a ≠ []) (hstart : ∀ a, Ends (fun b => b ≠ close) (enc a)) :
    PrefixFree fun xs : List α => xs.flatMap enc ++ [close] := by
  refine PrefixFree.of_inj fun xs => ?_
  induction xs with
  | nil =>
    intro ys r r' he
    cases ys with
    | nil => simpa using he
    | cons y ys =>
      obtain ⟨b, t, hb⟩ := List.exists_cons_of_ne_nil (hne y)
      have hclose := hstart y
      rw [hb, ends_cons] at hclose
      simp [hb] at he
      exact absurd he.1.symm hclose
  | cons x xs ih =>
    intro ys r r' he
    cases ys with
    | nil =>
      obtain ⟨b, t, hb⟩ := List.exists_cons_of_ne_nil (hne x)
      have hclose := hstart x
      rw [hb, ends_cons] at hclose
      simp [hb] at he
      exact absurd he.1 hclose
    | cons y ys =>
      simp only [List.flatMap_cons, List.append_assoc] at he
      obtain ⟨rfl, hrest⟩ := h.inj he
      obtain ⟨rfl, rfl⟩ := ih ys r r' (by simpa using hrest)
      exact ⟨rfl, rfl⟩

/-! ## Separated lists -/

/-- The code words with `sep` between them. -/
def sepBy (sep : β) : List (List β) → List β
  | [] => []
  | [w] => w
  | w :: v :: ws => w ++ sep :: sepBy sep (v :: ws)

theorem sepBy_cons_append (sep close : β) (w : List β) (ws : List (List β)) (r : List β) :
    ∃ b t, sepBy sep (w :: ws) ++ close :: r = w ++ b :: t ∧
      ((ws = [] ∧ b = close ∧ t = r) ∨
        (ws ≠ [] ∧ b = sep ∧ t = sepBy sep ws ++ close :: r)) := by
  cases ws with
  | nil => exact ⟨close, r, by simp [sepBy], Or.inl ⟨rfl, rfl, rfl⟩⟩
  | cons v vs =>
    exact ⟨sep, sepBy sep (v :: vs) ++ close :: r, by simp [sepBy],
      Or.inr ⟨by simp, rfl, rfl⟩⟩

/-- A list whose items split, separated by `sep` and closed by `close`, is read off the front of
every text. -/
theorem splits_sepBy (stop : β → Prop) (enc : α → List β) {sep close : β} (hsep : stop sep)
    (hclose : stop close) (hsc : sep ≠ close) (hne : ∀ a, enc a ≠ [])
    (hstart : ∀ a, Ends (fun b => b ≠ close) (enc a)) (xs : List α)
    (hx : ∀ x ∈ xs, Splits stop enc x) :
    Splits (fun _ => True) (fun ys : List α => sepBy sep (ys.map enc) ++ [close]) xs := by
  have htail : ∀ (x : α) (l r : List β), ∃ b t, enc x ++ l ++ r = b :: t ∧ b ≠ close := by
    intro x l r
    obtain ⟨b, t, hb⟩ := List.exists_cons_of_ne_nil (hne x)
    have hb' := hstart x
    rw [hb, ends_cons] at hb'
    exact ⟨b, t ++ l ++ r, by simp [hb], hb'⟩
  intro ys r r' _ _ h
  simp only [List.append_assoc, List.singleton_append] at h
  induction xs generalizing ys with
  | nil =>
    cases ys with
    | nil => exact ⟨rfl, (List.cons.inj h).2⟩
    | cons y ys =>
      -- the other list is not empty, so its first code word would start with `close`
      obtain ⟨c, t, hc, -⟩ := sepBy_cons_append sep close (enc y) (ys.map enc) r'
      obtain ⟨b, t', hb, hbc⟩ := htail y [c] t
      rw [List.map_cons, hc] at h
      have hbt : close :: r = b :: t' := by simpa [sepBy, ← hb] using h
      exact absurd (List.cons.inj hbt).1.symm hbc
  | cons x xs ih =>
    obtain ⟨c, t, hc, hct⟩ := sepBy_cons_append sep close (enc x) (xs.map enc) r
    cases ys with
    | nil =>
      obtain ⟨b, t', hb, hbc⟩ := htail x [c] t
      rw [List.map_cons, hc] at h
      have hbt : b :: t' = close :: r' := by simpa [sepBy, ← hb] using h
      exact absurd (List.cons.inj hbt).1 hbc
    | cons y ys =>
      obtain ⟨d, u, hd, hdu⟩ := sepBy_cons_append sep close (enc y) (ys.map enc) r'
      rw [List.map_cons, List.map_cons, hc, hd] at h
      have hstop : ∀ b t, (b = close ∨ b = sep) → Ends stop (b :: t) := by
        rintro b t (rfl | rfl) <;> simpa
      have hcs : c = close ∨ c = sep := by
        rcases hct with ⟨-, hc', -⟩ | ⟨-, hc', -⟩
        · exact Or.inl hc'
        · exact Or.inr hc'
      have hds : d = close ∨ d = sep := by
        rcases hdu with ⟨-, hd', -⟩ | ⟨-, hd', -⟩
        · exact Or.inl hd'
        · exact Or.inr hd'
      obtain ⟨rfl, hrest⟩ := hx x (by simp) y _ _ (hstop c t hcs) (hstop d u hds) h
      obtain ⟨rfl, rfl⟩ := List.cons.inj hrest
      -- both lists end here, or both go on
      rcases hct with ⟨hxs, rfl, rfl⟩ | ⟨hxs, rfl, rfl⟩
      · rcases hdu with ⟨hys, -, rfl⟩ | ⟨-, hcs', -⟩
        · obtain rfl := List.map_eq_nil_iff.mp hxs
          obtain rfl := List.map_eq_nil_iff.mp hys
          exact ⟨rfl, rfl⟩
        · exact absurd hcs'.symm hsc
      · rcases hdu with ⟨-, hcs', -⟩ | ⟨-, -, hu⟩
        · exact absurd hcs' hsc
        · obtain ⟨rfl, rfl⟩ := ih (fun z hz => hx z (by simp [hz])) ys hu
          exact ⟨rfl, rfl⟩

end Delimited
