import PulseStream.Lib.Delimited

/-!
# JSON numbers

`Token` is the text of a JSON number, `Number` is `serde_json::Number` over any type `F` of floats.
What `serde_json` itself does with strings and floats is not part of this repository. It enters as
two classes: `JsonText`, the text that is written, and `SerdeJson`, the decimals that floats are
written as and read from.
-/

namespace PulseStream

open Delimited

/-! ## Number tokens -/

/-- The characters `0-9 + - . e E` of a number token. -/
def IsNumberByte (b : UInt8) : Prop :=
  (48 ≤ b ∧ b ≤ 57) ∨ b = 0x2B ∨ b = 0x2D ∨ b = 0x2E ∨ b = 0x65 ∨ b = 0x45

instance : DecidablePred IsNumberByte := fun b => by
  unfold IsNumberByte
  infer_instance

/-- A JSON number as it is written: the digits of `coeff`, the last `scale` of them after the
point, and an exponent if there is one. -/
structure Token where
  neg : Bool
  coeff : ℕ
  scale : ℕ
  exp : Option ℤ
  deriving DecidableEq, Repr

namespace Token

/-- The number that the token denotes. -/
def value (t : Token) : ℚ := (if t.neg then -1 else 1) * (t.coeff * 10 ^ (t.exp.getD 0 - t.scale))

/-- `-0`, `-0.0` and so on. -/
def IsNegZero (t : Token) : Prop := t.neg = true ∧ t.coeff = 0

/-- `serde_json` reads the token as an integer: it has no point and no exponent, and it fits. -/
def ReadsAsInteger (t : Token) : Prop :=
  (t.scale = 0 ∧ t.exp = none) ∧
    ((t.neg = false ∧ t.coeff < 2 ^ 64) ∨ (t.neg = true ∧ 0 < t.coeff ∧ t.coeff ≤ 2 ^ 63))

instance : DecidablePred IsNegZero := fun t => by
  unfold IsNegZero
  infer_instance

instance : DecidablePred ReadsAsInteger := fun t => by
  unfold ReadsAsInteger
  infer_instance

end Token

/-! ## Decimals and floats

Without its `float_roundtrip` feature `serde_json` collects digits in a `u64` significand as long
as they fit, skips the others, converts the significand to `f64` and multiplies or divides it by a
power of ten. Each of these can round. -/

/-- An integer below `2 ^ 64` that a 53-bit significand holds. -/
def Fits53 (n : ℕ) : Prop := ∃ k ≤ 11, n % 2 ^ k = 0 ∧ n < 2 ^ (53 + k)

instance : DecidablePred Fits53 := fun n => by
  unfold Fits53
  infer_instance

/-- The decimal is read with one rounding. All digits fit the significand, and unless it is an
integer the significand converts exactly and the power of ten is exact; or it is an integer whose
skipped digits are zeros, with an exact significand and an exact power of ten. -/
def Token.OneRounding (t : Token) : Prop :=
  t.exp = none ∧
    ((t.coeff < 2 ^ 64 ∧ (t.scale = 0 ∨ t.scale ≤ 22 ∧ Fits53 t.coeff)) ∨
      (t.scale = 0 ∧ ∃ e ≤ 22, t.coeff % 10 ^ e = 0 ∧ t.coeff / 10 ^ e < 2 ^ 64 ∧
        2 ^ 64 ≤ 10 * (t.coeff / 10 ^ e) ∧ Fits53 (t.coeff / 10 ^ e)))

instance : DecidablePred Token.OneRounding := fun t => by
  unfold Token.OneRounding
  infer_instance

/-- From here on the twenty digits of the significand times `1e289` are infinite. The limit is
between the two largest finite floats, so that `f64::MAX` written in full is out of range. -/
def floatLimit : ℕ := 17976931348623156225 * (10 ^ 200 * 10 ^ 89)

/-- `coeff` with `scale` digits after the point is read as a finite float. -/
def InFloatRange (coeff scale : ℕ) : Prop := coeff < floatLimit * 10 ^ scale

instance (coeff scale : ℕ) : Decidable (InFloatRange coeff scale) :=
  inferInstanceAs (Decidable (_ < _))

/-! ## `serde_json::Number` -/

/-- `serde_json::Number`: a `u64`, a negative `i64` (as its absolute value) or a finite float. -/
inductive Number (F : Type) where
  | posInt (n : ℕ) (h : n < 2 ^ 64)
  | negInt (n : ℕ) (h : 0 < n ∧ n ≤ 2 ^ 63)
  | float (f : F)
  deriving DecidableEq

/-- What `serde_json::to_writer` writes for a string and for a number. A string stands between
quotes and delimits itself; distinct numbers have distinct texts over the characters of a number
token. -/
class JsonText (N : Type) where
  str : String → List UInt8
  num : N → List UInt8
  str_quoted : ∀ s, ∃ t, str s = 0x22 :: t
  str_prefixFree : PrefixFree str
  num_ne_nil : ∀ n, num n ≠ []
  num_bytes : ∀ n, ∀ b ∈ num n, IsNumberByte b
  num_injective : Function.Injective num

/-- The finite floats `F` of `serde_json`. `literal f` is the decimal that is written for `f`, and
`readFloat t` is the float that is read from a token which is no integer, `none` when it is out of
range. `Nearest q f` says that `q` rounds to `f`, where `f` is not `-0.0`.

A float is written as a decimal that rounds to it. A decimal is read as the nearest float if
reading it takes one rounding, and as a float of the same sign in any case. -/
class SerdeJson (F : outParam Type) extends JsonText (Number F) where
  literal : F → Token
  readFloat : Token → Option F
  Nearest : ℚ → F → Prop
  literal_nearest : ∀ f, ¬(literal f).IsNegZero → Nearest (literal f).value f
  readFloat_exact : ∀ t f, ¬t.IsNegZero → ¬t.ReadsAsInteger → t.OneRounding →
    Nearest t.value f → readFloat t = some f
  readFloat_neg : ∀ t f, readFloat t = some f → (literal f).neg = t.neg
  readFloat_isSome : ∀ t, t.exp = none → ¬t.ReadsAsInteger →
    ((readFloat t).isSome ↔ InFloatRange t.coeff t.scale)

namespace Number

variable {F : Type} [SerdeJson F]

/-- The decimal `serde_json` writes for a number. -/
def token : Number F → Token
  | posInt n _ => ⟨false, n, 0, none⟩
  | negInt n _ => ⟨true, n, 0, none⟩
  | float f => SerdeJson.literal f

/-- The number `serde_json` reads from a token: an integer if no point and no exponent is written
and it fits, and a float otherwise. -/
def ofToken (t : Token) : Option (Number F) :=
  if h : (t.scale = 0 ∧ t.exp = none) ∧ t.neg = false ∧ t.coeff < 2 ^ 64 then
    some (.posInt t.coeff h.2.2)
  else if h : (t.scale = 0 ∧ t.exp = none) ∧ t.neg = true ∧ 0 < t.coeff ∧ t.coeff ≤ 2 ^ 63 then
    some (.negInt t.coeff h.2.2)
  else (SerdeJson.readFloat t).map .float

theorem ofToken_of_not_integer {t : Token} (h : ¬t.ReadsAsInteger) :
    ofToken t = (SerdeJson.readFloat t).map (Number.float (F := F)) := by
  have hpos : ¬((t.scale = 0 ∧ t.exp = none) ∧ t.neg = false ∧ t.coeff < 2 ^ 64) :=
    fun hp => h ⟨hp.1, .inl hp.2⟩
  have hneg : ¬((t.scale = 0 ∧ t.exp = none) ∧ t.neg = true ∧ 0 < t.coeff ∧ t.coeff ≤ 2 ^ 63) :=
    fun hn => h ⟨hn.1, .inr hn.2⟩
  rw [ofToken, dif_neg hpos, dif_neg hneg]

theorem ofToken_of_integer {t : Token} (h : t.ReadsAsInteger) :
    ∃ n : Number F, ofToken t = some n ∧ ∀ f, n ≠ .float f := by
  obtain ⟨hint, hp | hn⟩ := h
  · exact ⟨.posInt t.coeff hp.2, dif_pos ⟨hint, hp⟩, by simp⟩
  · refine ⟨.negInt t.coeff hn.2, ?_, by simp⟩
    rw [ofToken, dif_neg (by simp [hn.1]), dif_pos ⟨hint, hn⟩]

theorem ofToken_isSome {t : Token} (h : t.exp = none) :
    (ofToken t : Option (Number F)).isSome ↔ InFloatRange t.coeff t.scale := by
  by_cases hint : t.ReadsAsInteger
  · obtain ⟨n, hn, -⟩ := ofToken_of_integer (F := F) hint
    refine iff_of_true (by rw [hn]; rfl) ?_
    have hcoeff : t.coeff < 2 ^ 64 := by
      rcases hint.2 with hp | hp <;> omega
    calc t.coeff < floatLimit := hcoeff.trans (by decide)
      _ = floatLimit * 10 ^ t.scale := by rw [hint.1.1, pow_zero, mul_one]
  · rw [ofToken_of_not_integer hint, Option.isSome_map, SerdeJson.readFloat_isSome t h hint]

end Number

end PulseStream
