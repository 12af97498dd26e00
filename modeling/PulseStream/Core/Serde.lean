import PulseStream.Core.Canonical

/-!
# JSON texts read by `serde_json`

`Value.ofText` is what `serde_json` makes of a JSON text, down to its numbers. A text that is nested
too deep or has a number out of range is refused (`Value.ofText_isSome`). The second half is an
instance of `SerdeJson` with seven of the `f64` values, for sample runs.
-/

namespace PulseStream

open Delimited

/-! ## Members with one key -/

section LastKeys

variable {N : Type}

mutual

/-- Of the members with one key the last is kept, as by inserting them into a map. -/
def lastKeys : Json N → Json N
  | .null => .null
  | .bool b => .bool b
  | .num n => .num n
  | .str s => .str s
  | .arr items => .arr (lastItems items)
  | .obj members => .obj (lastMembers members)

def lastItems : List (Json N) → List (Json N)
  | [] => []
  | v :: vs => lastKeys v :: lastItems vs

def lastMembers : List (String × Json N) → List (String × Json N)
  | [] => []
  | (k, v) :: ms =>
    if k ∈ ms.map Prod.fst then lastMembers ms else (k, lastKeys v) :: lastMembers ms

end

theorem lastItems_eq (items : List (Json N)) : lastItems items = items.map lastKeys := by
  induction items with
  | nil => simp [lastItems]
  | cons v vs ih => simp [lastItems, ih]

theorem lastMembers_sublist (members : List (String × Json N)) :
    (lastMembers members).Sublist (members.map fun m => (m.1, lastKeys m.2)) := by
  induction members with
  | nil => simp [lastMembers]
  | cons m ms ih =>
    rw [lastMembers, List.map_cons]
    split_ifs with hk
    · exact ih.cons _
    · exact ih.cons_cons _

theorem map_fst_comp {α β : Type} (f : α → β) (members : List (String × α)) :
    (members.map fun m => (m.1, f m.2)).map Prod.fst = members.map Prod.fst := by
  rw [List.map_map]
  rfl

theorem lastMembers_nodup (members : List (String × Json N)) :
    ((lastMembers members).map Prod.fst).Nodup := by
  induction members with
  | nil => simp [lastMembers]
  | cons m ms ih =>
    rw [lastMembers]
    split_ifs with hk
    · exact ih
    · refine List.nodup_cons.mpr ⟨fun hmem => hk ?_, ih⟩
      have hsub := ((lastMembers_sublist ms).map Prod.fst).subset hmem
      rwa [map_fst_comp] at hsub

theorem lastKeys_distinct (v : Json N) : (lastKeys v).distinctKeys = true := by
  induction v using Json.induction with
  | null => rfl
  | bool b => rfl
  | num n => rfl
  | str s => rfl
  | arr items ih =>
    rw [lastKeys, lastItems_eq, Json.distinctKeys_arr, List.forall_mem_map]
    exact ih
  | obj members ih =>
    rw [lastKeys, Json.distinctKeys_obj]
    refine ⟨lastMembers_nodup members, fun m hm => ?_⟩
    obtain ⟨m', hm', rfl⟩ := List.mem_map.mp ((lastMembers_sublist members).subset hm)
    exact ih m' hm'

theorem lastMembers_eq {members : List (String × Json N)} (h : (members.map Prod.fst).Nodup) :
    lastMembers members = members.map fun m => (m.1, lastKeys m.2) := by
  induction members with
  | nil => simp [lastMembers]
  | cons m ms ih =>
    obtain ⟨hk, hnd⟩ := List.nodup_cons.mp h
    rw [lastMembers, if_neg hk, ih hnd, List.map_cons]

theorem lastKeys_eq_self {v : Json N} (h : v.distinctKeys = true) : lastKeys v = v := by
  induction v using Json.induction with
  | null => rfl
  | bool b => rfl
  | num n => rfl
  | str s => rfl
  | arr items ih =>
    rw [Json.distinctKeys_arr] at h
    rw [lastKeys, lastItems_eq, List.map_congr_left fun v hv => ih v hv (h v hv), List.map_id']
  | obj members ih =>
    rw [Json.distinctKeys_obj] at h
    rw [lastKeys, lastMembers_eq h.1,
      List.map_congr_left fun m hm => by rw [ih m hm (h.2 m hm)], List.map_id']

end LastKeys

/-! ## Reading a text -/

/-- `serde_json` refuses a text that is nested this deep. -/
def recursionLimit : ℕ := 128

section Read

variable {F : Type} [SerdeJson F]

/-- The value `serde_json` reads from a text. -/
def Value.ofText (t : Json Token) : Option (Value F) :=
  if t.depth < recursionLimit then
    (t.traverse Number.ofToken).map fun v => ⟨lastKeys v, lastKeys_distinct v⟩
  else none

/-- A text of plain decimals is read exactly when it is not nested too deep and its numbers are in
range. -/
theorem Value.ofText_isSome {t : Json Token} (h : ∀ n ∈ t.numbers, n.exp = none) :
    (Value.ofText t : Option (Value F)).isSome ↔
      t.depth < recursionLimit ∧ ∀ n ∈ t.numbers, InFloatRange n.coeff n.scale := by
  unfold ofText
  split_ifs with hdepth
  · rw [Option.isSome_map, and_iff_right hdepth, Json.traverse_isSome]
    exact forall₂_congr fun n hn => Number.ofToken_isSome (h n hn)
  · exact iff_of_false (by simp) fun hread => hdepth hread.1

end Read

/-! ## A few floats -/

/-- Some finite `f64` values: `0.0`, `-0.0`, `0.5`, `1e16`, `1e42`, the float below `1e42` and
`f64::MAX`. -/
inductive SampleFloat where
  | zero
  | negZero
  | half
  | e16
  | e42
  | below42
  | max
  deriving DecidableEq

namespace SampleFloat

def literal : SampleFloat → Token
  | zero => ⟨false, 0, 1, none⟩
  | negZero => ⟨true, 0, 1, none⟩
  | half => ⟨false, 5, 1, none⟩
  | e16 => ⟨false, 1, 0, some 16⟩
  | e42 => ⟨false, 1, 0, some 42⟩
  | below42 => ⟨false, 9999999999999999, 15, some 41⟩
  | max => ⟨false, 17976931348623157, 16, some 308⟩

def text : SampleFloat → String
  | zero => "0.0"
  | negZero => "-0.0"
  | half => "0.5"
  | e16 => "1e+16"
  | e42 => "1e+42"
  | below42 => "9.999999999999999e+41"
  | max => "1.7976931348623157e+308"

/-- The float read from a plain decimal. For `1e42` the significand is `10 ^ 19`, and its product
with the float `1e23` is rounded down. Decimals of other values than the floats above are read as
zeros. -/
def readFloat (t : Token) : Option SampleFloat :=
  if ¬InFloatRange t.coeff t.scale then none
  else if t.neg then some negZero
  else if 2 * t.coeff = 10 ^ t.scale then some half
  else if t.coeff = 10 ^ 16 * 10 ^ t.scale then some e16
  else if t.coeff = 10 ^ 42 * 10 ^ t.scale then some below42
  else some zero

theorem readFloat_isSome (t : Token) :
    (readFloat t).isSome ↔ InFloatRange t.coeff t.scale := by
  unfold readFloat
  split_ifs <;> simp_all

theorem literal_neg_of_readFloat {t : Token} {f : SampleFloat} (h : readFloat t = some f) :
    f.literal.neg = t.neg := by
  unfold readFloat at h
  split_ifs at h with _ hneg <;> obtain rfl := Option.some.inj h
  · exact hneg.symm
  all_goals exact (Bool.eq_false_of_not_eq_true hneg).symm

theorem coeff_lt_of_oneRounding {t : Token} (h : t.OneRounding) : t.coeff < 2 ^ 64 * 10 ^ 22 := by
  obtain ⟨-, ⟨hlt, -⟩ | ⟨-, e, he, -, hlt, -⟩⟩ := h
  · omega
  · have hpow : 10 ^ e ≤ 10 ^ 22 := Nat.pow_le_pow_right (by decide) he
    exact ((Nat.div_lt_iff_lt_mul (by positivity)).mp hlt).trans_le (Nat.mul_le_mul_left _ hpow)

/-- A plain decimal of the value of one of the floats is an integral multiple of its last place. -/
theorem coeff_of_value_eq {t : Token} (hexp : t.exp = none) (hzero : ¬t.IsNegZero) {a b : ℕ}
    (hb : 0 < b) (h : t.value = a / b) : t.neg = false ∧ b * t.coeff = a * 10 ^ t.scale := by
  have hpow : (0 : ℚ) < 10 ^ t.scale := by positivity
  have hval : t.value = (if t.neg then -1 else 1) * (t.coeff / 10 ^ t.scale) := by
    rw [Token.value, hexp, Option.getD_none, zero_sub, zpow_neg, zpow_natCast, div_eq_mul_inv]
  cases hneg : t.neg with
  | true =>
    have hcoeff : (0 : ℚ) < t.coeff := by
      rw [Nat.cast_pos]
      exact Nat.pos_of_ne_zero fun hc => hzero ⟨hneg, hc⟩
    have hnonneg : (0 : ℚ) ≤ a / b := by positivity
    have hpos : (0 : ℚ) < t.coeff / 10 ^ t.scale := by positivity
    rw [hval, hneg, if_pos rfl] at h
    linarith
  | false =>
    rw [hval, hneg, if_neg (by decide), one_mul,
      div_eq_div_iff hpow.ne' (Nat.cast_pos.mpr hb).ne'] at h
    refine ⟨rfl, ?_⟩
    rw [mul_comm]
    exact_mod_cast h

theorem readFloat_exact {t : Token} {f : SampleFloat} (hzero : ¬t.IsNegZero) (hone : t.OneRounding)
    (hf : ¬f.literal.IsNegZero) (hval : t.value = f.literal.value) : readFloat t = some f := by
  have hlt := coeff_lt_of_oneRounding hone
  have hpow : 1 ≤ 10 ^ t.scale := Nat.one_le_pow _ _ (by decide)
  have hrange : InFloatRange t.coeff t.scale :=
    calc t.coeff < 2 ^ 64 * 10 ^ 22 := hlt
      _ ≤ floatLimit := by decide
      _ ≤ floatLimit * 10 ^ t.scale := Nat.le_mul_of_pos_right _ hpow
  have key : ∀ a b : ℕ, 0 < b → f.literal.value = a / b →
      t.neg = false ∧ b * t.coeff = a * 10 ^ t.scale :=
    fun a b hb h => coeff_of_value_eq hone.1 hzero hb (hval.trans h)
  unfold readFloat
  rw [if_neg (not_not.mpr hrange)]
  cases f with
  | zero =>
    obtain ⟨hneg, hcoeff⟩ := key 0 1 (by decide) (by norm_num [literal, Token.value])
    rw [if_neg (by simp [hneg]), if_neg (by omega), if_neg (by omega), if_neg (by omega)]
  | negZero => exact absurd ⟨rfl, rfl⟩ hf
  | half =>
    obtain ⟨hneg, hcoeff⟩ := key 1 2 (by decide) (by norm_num [literal, Token.value])
    rw [if_neg (by simp [hneg]), if_pos (by omega)]
  | e16 =>
    obtain ⟨hneg, hcoeff⟩ := key (10 ^ 16) 1 (by decide) (by norm_num [literal, Token.value])
    rw [if_neg (by simp [hneg]), if_neg (by omega), if_pos (by omega)]
  -- the other three are too large to be read with one rounding
  | e42 =>
    obtain ⟨-, hcoeff⟩ := key (10 ^ 42) 1 (by decide) (by norm_num [literal, Token.value])
    omega
  | below42 =>
    obtain ⟨-, hcoeff⟩ := key (9999999999999999 * 10 ^ 26) 1 (by decide)
      (by norm_num [literal, Token.value])
    omega
  | max =>
    obtain ⟨-, hcoeff⟩ := key (17976931348623157 * 10 ^ 292) 1 (by decide)
      (by norm_num [literal, Token.value])
    have hlarge : 10 ^ 42 ≤ 10 ^ (292 + t.scale) := Nat.pow_le_pow_right (by decide) (by omega)
    rw [mul_assoc, ← pow_add] at hcoeff
    omega

/-! The text of integers is their digits, and the text of a string is the string between quotes,
with a backslash in front of quotes and backslashes. -/

/-- The last `k` decimal digits of `n`, leading zeros included. -/
def digits : ℕ → ℕ → List UInt8
  | 0, _ => []
  | k + 1, n => digits k (n / 10) ++ [UInt8.ofNat (48 + n % 10)]

/-- The decimal digits of `n`, with no leading zero. -/
def decimal (n : ℕ) : List UInt8 := digits (Nat.log 10 n + 1) n

theorem length_digits (k n : ℕ) : (digits k n).length = k := by
  induction k generalizing n with
  | zero => rfl
  | succ k ih => rw [digits, List.length_append, ih, List.length_singleton]

theorem toNat_digit (n : ℕ) : (UInt8.ofNat (48 + n % 10)).toNat = 48 + n % 10 := by
  rw [UInt8.toNat_ofNat']
  exact Nat.mod_eq_of_lt (by omega)

theorem mem_digits {k n : ℕ} {b : UInt8} (h : b ∈ digits k n) : 48 ≤ b ∧ b ≤ 57 := by
  induction k generalizing n with
  | zero => cases h
  | succ k ih =>
    rw [digits, List.mem_append, List.mem_singleton] at h
    rcases h with h | rfl
    · exact ih h
    · rw [UInt8.le_iff_toNat_le, UInt8.le_iff_toNat_le, toNat_digit]
      constructor
      · exact Nat.le_add_right 48 _
      · show 48 + n % 10 ≤ 57
        omega

theorem digits_inj {k m n : ℕ} (hm : m < 10 ^ k) (hn : n < 10 ^ k) (h : digits k m = digits k n) :
    m = n := by
  induction k generalizing m n with
  | zero =>
    rw [pow_zero] at hm hn
    omega
  | succ k ih =>
    rw [digits, digits] at h
    obtain ⟨hhigh, hlow⟩ := List.append_inj' h rfl
    have hdiv : m / 10 = n / 10 := by
      rw [pow_succ] at hm hn
      exact ih (Nat.div_lt_of_lt_mul (by omega)) (Nat.div_lt_of_lt_mul (by omega)) hhigh
    have hmod : m % 10 = n % 10 := by
      have hval := congrArg UInt8.toNat (List.cons.inj hlow).1
      rw [toNat_digit, toNat_digit] at hval
      omega
    omega

theorem decimal_injective : Function.Injective decimal := by
  intro m n h
  have hlen : Nat.log 10 m + 1 = Nat.log 10 n + 1 := by
    have hlen := congrArg List.length h
    rwa [decimal, decimal, length_digits, length_digits] at hlen
  have hm := Nat.lt_pow_succ_log_self (by decide : 1 < 10) m
  have hn := Nat.lt_pow_succ_log_self (by decide : 1 < 10) n
  rw [decimal, decimal, hlen] at h
  rw [Nat.succ_eq_add_one, hlen] at hm
  exact digits_inj hm hn h

def num : Number SampleFloat → List UInt8
  | .posInt n _ => decimal n
  | .negInt n _ => 0x2D :: decimal n
  | .float f => utf8 f.text

theorem num_ne_nil (n : Number SampleFloat) : num n ≠ [] := by
  cases n with
  | posInt n _ =>
    intro h
    have hlen := congrArg List.length h
    rw [num, decimal, length_digits] at hlen
    exact absurd hlen (Nat.succ_ne_zero _)
  | negInt n _ => exact List.cons_ne_nil _ _
  | float f => cases f <;> decide

theorem num_bytes (n : Number SampleFloat) : ∀ b ∈ num n, IsNumberByte b := by
  intro b hb
  cases n with
  | posInt n _ => exact .inl (mem_digits hb)
  | negInt n _ =>
    rcases List.mem_cons.mp hb with rfl | hb
    · decide
    · exact .inl (mem_digits hb)
  | float f =>
    have hall : ∀ f : SampleFloat, ∀ b ∈ utf8 f.text, IsNumberByte b := by
      intro f
      cases f <;> decide +kernel
    exact hall f b hb

theorem num_float_ne {f : SampleFloat} {l : List UInt8} {n : ℕ} (hl : l = [] ∨ l = [0x2D]) :
    utf8 f.text ≠ l ++ decimal n := by
  intro h
  have hmark : 0x2E ∈ utf8 f.text ∨ 0x65 ∈ utf8 f.text := by cases f <;> decide
  have hdigit : ∀ b, b ∈ l ++ decimal n → b = 0x2D ∨ 48 ≤ b ∧ b ≤ 57 := by
    intro b hb
    rcases List.mem_append.mp hb with hb | hb
    · rcases hl with rfl | rfl
      · cases hb
      · exact .inl (List.mem_singleton.mp hb)
    · exact .inr (mem_digits hb)
  rw [h] at hmark
  rcases hmark with hb | hb
  · exact absurd (hdigit _ hb) (by decide)
  · exact absurd (hdigit _ hb) (by decide)

theorem decimal_ne_minus (m n : ℕ) : decimal m ≠ 0x2D :: decimal n := by
  intro h
  have hb : (0x2D : UInt8) ∈ decimal m := by
    rw [h]
    exact List.mem_cons_self
  exact absurd (mem_digits hb) (by decide)

theorem num_injective : Function.Injective num := by
  intro a b h
  cases a with
  | posInt m hm =>
    cases b with
    | posInt n hn =>
      obtain rfl := decimal_injective h
      rfl
    | negInt n hn => exact absurd h (decimal_ne_minus m n)
    | float f => exact absurd h.symm (num_float_ne (.inl rfl))
  | negInt m hm =>
    cases b with
    | posInt n hn => exact absurd h.symm (decimal_ne_minus n m)
    | negInt n hn =>
      obtain rfl := decimal_injective (List.cons.inj h).2
      rfl
    | float f => exact absurd h.symm (num_float_ne (.inr rfl))
  | float f =>
    cases b with
    | posInt n hn => exact absurd h (num_float_ne (.inl rfl))
    | negInt n hn => exact absurd h (num_float_ne (.inr rfl))
    | float g =>
      have htext : ∀ f g : SampleFloat, utf8 f.text = utf8 g.text → f = g := by
        intro f g
        cases f <;> cases g <;> decide
      rw [htext f g h]

def char (c : Char) : List UInt8 :=
  if c.toNat = 0x22 ∨ c.toNat = 0x5C then 0x5C :: String.utf8EncodeChar c
  else String.utf8EncodeChar c

def str (s : String) : List UInt8 := 0x22 :: (s.toList.flatMap char ++ [0x22])

theorem utf8EncodeChar_eq_cons {c : Char} (h : ¬(c.toNat = 0x22 ∨ c.toNat = 0x5C)) :
    ∃ b t, String.utf8EncodeChar c = b :: t ∧ b ≠ 0x22 ∧ b ≠ 0x5C := by
  obtain ⟨hq, hb⟩ := not_or.mp h
  have key : ∀ n : ℕ, n < 256 → n ≠ 0x22 → n ≠ 0x5C →
      UInt8.ofNat n ≠ 0x22 ∧ UInt8.ofNat n ≠ 0x5C := by
    intro n hn h1 h2
    constructor <;> intro he <;> have he' := congrArg UInt8.toNat he <;>
      rw [UInt8.toNat_ofNat', Nat.mod_eq_of_lt hn] at he'
    · exact h1 he'
    · exact h2 he'
  unfold String.utf8EncodeChar
  simp only [show c.val.toNat = c.toNat from rfl]
  split_ifs
  · exact ⟨_, _, rfl, key _ (by omega) hq hb⟩
  · exact ⟨_, _, rfl, key _ (by omega) (by omega) (by omega)⟩
  · exact ⟨_, _, rfl, key _ (by omega) (by omega) (by omega)⟩
  · exact ⟨_, _, rfl, key _ (by omega) (by omega) (by omega)⟩

theorem char_eq_cons (c : Char) : ∃ b t, char c = b :: t ∧ b ≠ 0x22 := by
  unfold char
  split_ifs with h
  · exact ⟨0x5C, _, rfl, by decide⟩
  · obtain ⟨b, t, hb, hq, -⟩ := utf8EncodeChar_eq_cons h
    exact ⟨b, t, hb, hq⟩

theorem char_prefixFree : PrefixFree char := by
  refine PrefixFree.of_inj fun c d r r' h => ?_
  unfold char at h
  split_ifs at h with hc hd hd
  · exact utf8EncodeChar_prefixFree.inj (List.cons.inj h).2
  · obtain ⟨b, t, hb, -, hne⟩ := utf8EncodeChar_eq_cons hd
    rw [hb] at h
    exact absurd (List.cons.inj h).1.symm hne
  · obtain ⟨b, t, hb, -, hne⟩ := utf8EncodeChar_eq_cons hc
    rw [hb] at h
    exact absurd (List.cons.inj h).1 hne
  · exact utf8EncodeChar_prefixFree.inj h

theorem str_prefixFree : PrefixFree str := by
  refine PrefixFree.of_inj fun s t r r' h => ?_
  have hclosed := prefixFree_closed 0x22 char_prefixFree
    (fun c => by obtain ⟨b, t, hb, -⟩ := char_eq_cons c; simp [hb])
    (fun c => by obtain ⟨b, t, hb, hq⟩ := char_eq_cons c; simp [hb, hq])
  unfold str at h
  obtain ⟨hl, hr⟩ := hclosed.inj (List.cons.inj h).2
  exact ⟨String.toList_inj.mp hl, hr⟩

/-- `serde_json` on these floats. -/
@[reducible] def serde : SerdeJson SampleFloat where
  str := str
  num := num
  str_quoted _ := ⟨_, rfl⟩
  str_prefixFree := str_prefixFree
  num_ne_nil := num_ne_nil
  num_bytes := num_bytes
  num_injective := num_injective
  literal := literal
  readFloat := readFloat
  Nearest q f := ¬f.literal.IsNegZero ∧ q = f.literal.value
  literal_nearest _ hf := ⟨hf, rfl⟩
  readFloat_exact _ _ hzero _ hone h := readFloat_exact hzero hone h.1 h.2
  readFloat_neg _ _ h := literal_neg_of_readFloat h
  readFloat_isSome t _ _ := readFloat_isSome t

end SampleFloat

end PulseStream
