import Mathlib.Tactic

/-!
# Hexadecimal numbers

Numbers with a fixed count of hexadecimal digits, most significant first. They are written in lower
case and read in either; `read_write` is the round trip.
-/

namespace Hex

/-- The byte of a digit, in lower case. -/
def digit (d : ℕ) : UInt8 := if d < 10 then UInt8.ofNat (0x30 + d) else UInt8.ofNat (0x57 + d)

/-- The digit of a byte, in either case. -/
def digitOf (b : UInt8) : Option ℕ :=
  if 0x30 ≤ b ∧ b ≤ 0x39 then some (b.toNat - 0x30)
  else if 0x61 ≤ b ∧ b ≤ 0x66 then some (b.toNat - 0x57)
  else if 0x41 ≤ b ∧ b ≤ 0x46 then some (b.toNat - 0x37)
  else none

/-- The last `k` digits of a number. -/
def write : ℕ → ℕ → List UInt8
  | 0, _ => []
  | k + 1, n => write k (n / 16) ++ [digit (n % 16)]

/-- Reads digits behind a number that has been read already. -/
def read (acc : ℕ) : List UInt8 → Option ℕ
  | [] => some acc
  | b :: bs => (digitOf b).bind fun d => read (16 * acc + d) bs

@[simp] theorem length_write (k n : ℕ) : (write k n).length = k := by
  induction k generalizing n with
  | zero => rfl
  | succ k ih => rw [write, List.length_append, ih, List.length_singleton]

theorem digitOf_digit {d : ℕ} (h : d < 16) : digitOf (digit d) = some d := by
  interval_cases d <;> decide

theorem read_append (acc : ℕ) (bs cs : List UInt8) :
    read acc (bs ++ cs) = (read acc bs).bind fun n => read n cs := by
  induction bs generalizing acc with
  | nil => rfl
  | cons b bs ih =>
    rw [List.cons_append, read, read, Option.bind_assoc]
    exact congrArg _ (funext fun d => ih _)

theorem read_write (acc : ℕ) {k n : ℕ} (h : n < 16 ^ k) :
    read acc (write k n) = some (16 ^ k * acc + n) := by
  induction k generalizing n with
  | zero =>
    rw [pow_zero] at h
    simp [write, read, Nat.lt_one_iff.mp h]
  | succ k ih =>
    have hdiv : n / 16 < 16 ^ k := Nat.div_lt_of_lt_mul (by rw [pow_succ] at h; omega)
    rw [write, read_append, ih hdiv, Option.bind_some, read, digitOf_digit (n.mod_lt (by decide)),
      Option.bind_some, read, pow_succ]
    congr 1
    have hn := Nat.div_add_mod n 16
    ring_nf
    omega

theorem write_lt {k n : ℕ} {b : UInt8} (h : b ∈ write k n) : b < 0x80 := by
  induction k generalizing n with
  | zero => cases h
  | succ k ih =>
    rcases List.mem_append.mp h with h | h
    · exact ih h
    · rw [List.mem_singleton.mp h]
      have hd := n.mod_lt (show 0 < 16 by decide)
      generalize n % 16 = d at hd
      interval_cases d <;> decide

end Hex
