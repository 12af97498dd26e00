import PulseStream.Core.Serde

/-!
# `JSONB` values

The payload crosses the wire as JSON text (`Json Token`), is stored as `JSONB` (`Json Numeric`)
and is read back from text by `serde_json`. A stored number is its exact decimal value with the
fractional digits that were written; `JSONB` refuses the character U+0000 and lists the members of
an object by length and bytes of their keys.
-/

namespace PulseStream

open KeySort

/-- A number of `JSONB`: `coeff` with `scale` digits after the point. -/
structure Numeric where
  neg : Bool
  coeff : ℕ
  scale : ℕ
  deriving DecidableEq, Repr

/-- A number text as stored: the exponent moves the point, and zero loses its sign. -/
def numericIn (t : Token) : Numeric :=
  let e := t.exp.getD 0
  let neg := t.neg && t.coeff != 0
  if e ≤ t.scale then ⟨neg, t.coeff, (t.scale - e).toNat⟩
  else ⟨neg, t.coeff * 10 ^ (e - t.scale).toNat, 0⟩

/-- A stored number as printed, with no exponent. -/
def numericOut (n : Numeric) : Token := ⟨n.neg, n.coeff, n.scale, none⟩

/-- A stored `JSONB` value. -/
abbrev Jsonb := Json Numeric

/-- The string contains U+0000. -/
def hasNul (s : String) : Bool := s.toList.any fun c => c.toNat == 0

/-- No string and no key at any depth contains U+0000. -/
def Json.noNul {N : Type} : Json N → Bool :=
  Json.all (fun _ => true) (fun s => !hasNul s) (fun ks => ks.all fun k => !hasNul k)

section Reorder

variable {N : Type}

/-- The member order of `JSONB`: shorter keys first, then by bytes. -/
def jsonbOrder {α : Type} (members : List (String × α)) : List (String × α) :=
  keySort (fun m => toLex ((utf8 m.1).length, sortKey m.1)) members

mutual

/-- The value with the members of every object in the order `JSONB` keeps them. -/
def reorder : Json N → Json N
  | .null => .null
  | .bool b => .bool b
  | .num n => .num n
  | .str s => .str s
  | .arr items => .arr (reorderItems items)
  | .obj members => .obj (jsonbOrder (reorderMembers members))

def reorderItems : List (Json N) → List (Json N)
  | [] => []
  | v :: vs => reorder v :: reorderItems vs

def reorderMembers : List (String × Json N) → List (String × Json N)
  | [] => []
  | (k, v) :: ms => (k, reorder v) :: reorderMembers ms

end

theorem reorder_arr (items : List (Json N)) : reorder (.arr items) = .arr (items.map reorder) := by
  have h : reorderItems items = items.map reorder := by
    induction items with
    | nil => simp [reorderItems]
    | cons v vs ih => simp [reorderItems, ih]
  rw [reorder, h]

theorem reorder_obj (members : List (String × Json N)) :
    reorder (.obj members) = .obj (jsonbOrder (members.map fun m => (m.1, reorder m.2))) := by
  have h : reorderMembers members = members.map fun m => (m.1, reorder m.2) := by
    induction members with
    | nil => simp [reorderMembers]
    | cons m ms ih => simp [reorderMembers, ih]
  rw [reorder, h]

end Reorder

/-- A JSON text as stored, `none` when `JSONB` cannot hold it. -/
def jsonbIn (text : Json Token) : Option Jsonb :=
  if text.noNul then some (reorder (text.map numericIn)) else none

/-- A stored value as the JSON text sent to the client. -/
def jsonbOut (v : Jsonb) : Json Token := v.map numericOut

/-! ## What can be read again -/

/-- `serde_json` can read the printed value: it is not nested too deep, and its numbers are in the
range of the floats. -/
def Json.Readable (v : Jsonb) : Prop :=
  v.depth < recursionLimit ∧ ∀ n ∈ v.numbers, InFloatRange n.coeff n.scale

instance : DecidablePred Json.Readable := fun v => by
  unfold Json.Readable
  infer_instance

theorem ofText_jsonbOut_isSome {F : Type} [SerdeJson F] (v : Jsonb) :
    (Value.ofText (jsonbOut v) : Option (Value F)).isSome ↔ v.Readable := by
  have hplain : ∀ n ∈ (jsonbOut v).numbers, n.exp = none := by
    rw [jsonbOut, Json.numbers_map, List.forall_mem_map]
    exact fun n _ => rfl
  rw [Value.ofText_isSome hplain, jsonbOut, Json.depth_map, Json.numbers_map, List.forall_mem_map]
  rfl

/-! ## What is stored -/

theorem jsonbIn_isSome {text : Json Token} : (jsonbIn text).isSome = text.noNul := by
  unfold jsonbIn
  split_ifs with h
  · rw [h]
    rfl
  · rw [Bool.eq_false_of_not_eq_true h]
    rfl

theorem jsonbIn_isNull {text : Json Token} {v : Jsonb} (h : jsonbIn text = some v) :
    v.isNull = text.isNull := by
  unfold jsonbIn at h
  split_ifs at h
  obtain rfl := Option.some.inj h
  cases text <;> rfl

end PulseStream
