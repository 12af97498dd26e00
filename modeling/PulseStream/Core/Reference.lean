import PulseStream.Core.Idempotency
import PulseStream.Lib.LexCode

/-!
# The documented encoding

The documentation of `RequestFingerprint` says that object keys are sorted by Unicode code point.
`reference` is an encoder that does that, and `canonical_is_reference` says that `write_canonical`
writes its bytes, in whatever order the map lists its members and whichever sort by Rust's string
order is used.
-/

namespace PulseStream

open Delimited KeySort LexCode

/-! ## Code points and bytes -/

/-- The Unicode code points of a string. -/
def codePoints (s : String) : List ℕ := s.toList.map Char.toNat

/-- The UTF-8 bytes of a code point. -/
def encodePoint (n : ℕ) : List ℕ :=
  if n ≤ 0x7F then [n]
  else if n ≤ 0x7FF then [n / 64 + 0xC0, n % 64 + 0x80]
  else if n ≤ 0xFFFF then [n / 4096 + 0xE0, n / 64 % 64 + 0x80, n % 64 + 0x80]
  else [n / 262144 + 0xF0, n / 4096 % 64 + 0x80, n / 64 % 64 + 0x80, n % 64 + 0x80]

theorem utf8EncodeChar_eq (c : Char) :
    (String.utf8EncodeChar c).map UInt8.toNat = encodePoint c.toNat := by
  have hmax : c.toNat < 0x110000 := by
    have hvalid := c.valid
    simp only [UInt32.isValidChar, Nat.isValidChar] at hvalid
    show c.val.toNat < _
    omega
  unfold String.utf8EncodeChar encodePoint
  simp only [show c.val.toNat = c.toNat from rfl]
  split_ifs <;> simp only [List.map_cons, List.map_nil, UInt8.toNat_ofNat', List.cons.injEq,
    and_true] <;> omega

/-- A smaller code point has smaller bytes: with a shorter encoding its first byte is smaller, and
with one of the same length its bytes are the digits of the same positions. -/
theorem encodePoint_below {m n : ℕ} (h : m < n) : Below (encodePoint m) (encodePoint n) := by
  unfold encodePoint
  split_ifs
  all_goals first
    | exact .head (by omega) _ _
    | exact .of_le (by omega) fun _ => .head (by omega) _ _
    | exact .of_le (by omega) fun _ => .of_le (by omega) fun _ => .head (by omega) _ _
    | exact .of_le (by omega) fun _ => .of_le (by omega) fun _ => .of_le (by omega) fun _ =>
        .head (by omega) _ _

theorem sortKey_eq (s : String) : sortKey s = (codePoints s).flatMap encodePoint := by
  unfold sortKey utf8 codePoints
  rw [List.map_flatMap, List.flatMap_map]
  exact List.flatMap_congr fun c _ => utf8EncodeChar_eq c

/-- **Byte order is code point order.** -/
theorem sortKey_le_iff {s t : String} : sortKey s ≤ sortKey t ↔ codePoints s ≤ codePoints t := by
  rw [sortKey_eq, sortKey_eq]
  refine (flatMap_strictMono (fun _ _ h => encodePoint_below h) fun n => ?_).le_iff_le
  unfold encodePoint
  split_ifs <;> simp

/-! ## The reference encoder -/

section Reference

variable {N : Type} (str : String → List UInt8) (num : N → List UInt8)

/-- The members of an object by increasing code points of their keys. -/
def byCodePoint {α : Type} (members : List (String × α)) : List (String × α) :=
  keySort (fun m => codePoints m.1) members

mutual

/-- JSON text without whitespace, with the members of every object by increasing code points of
their keys. -/
def reference : Json N → List UInt8
  | .null => [0x6E, 0x75, 0x6C, 0x6C]
  | .bool true => [0x74, 0x72, 0x75, 0x65]
  | .bool false => [0x66, 0x61, 0x6C, 0x73, 0x65]
  | .num n => num n
  | .str s => str s
  | .arr items => 0x5B :: (sepBy 0x2C (referenceItems items) ++ [0x5D])
  | .obj members =>
    0x7B :: (sepBy 0x2C ((byCodePoint (referenceMembers members)).map (writeMember str)) ++ [0x7D])

def referenceItems : List (Json N) → List (List UInt8)
  | [] => []
  | v :: vs => reference v :: referenceItems vs

def referenceMembers : List (String × Json N) → List (String × List UInt8)
  | [] => []
  | (k, v) :: ms => (k, reference v) :: referenceMembers ms

end

mutual

/-- `write_canonical` with any sort: the entries of a map come in some order, and an unstable sort
leaves them in some order in which their keys do not decrease. -/
def WritesCanonical : Json N → List UInt8 → Prop
  | .null, out => out = [0x6E, 0x75, 0x6C, 0x6C]
  | .bool true, out => out = [0x74, 0x72, 0x75, 0x65]
  | .bool false, out => out = [0x66, 0x61, 0x6C, 0x73, 0x65]
  | .num n, out => out = num n
  | .str s, out => out = str s
  | .arr items, out => ∃ texts, WritesItems items texts ∧
      out = 0x5B :: (sepBy 0x2C texts ++ [0x5D])
  | .obj members, out => ∃ texts entries : List (String × List UInt8),
      WritesMembers members texts ∧ entries.Perm texts ∧
      entries.Pairwise (fun a b => sortKey a.1 ≤ sortKey b.1) ∧
      out = 0x7B :: (sepBy 0x2C (entries.map (writeMember str)) ++ [0x7D])

def WritesItems : List (Json N) → List (List UInt8) → Prop
  | [], texts => texts = []
  | v :: vs, texts => ∃ t ts, WritesCanonical v t ∧ WritesItems vs ts ∧ texts = t :: ts

def WritesMembers : List (String × Json N) → List (String × List UInt8) → Prop
  | [], texts => texts = []
  | (k, v) :: ms, texts => ∃ t ts, WritesCanonical v t ∧ WritesMembers ms ts ∧ texts = (k, t) :: ts

end

/-! ## Any sort gives the reference -/

theorem byCodePoint_eq {α : Type} (members : List (String × α)) :
    byCodePoint members = sortMembers members := by
  unfold byCodePoint sortMembers keySort
  congr! 3
  exact sortKey_le_iff.symm

theorem referenceItems_eq (items : List (Json N)) :
    referenceItems str num items = items.map (reference str num) := by
  induction items with
  | nil => simp [referenceItems]
  | cons v vs ih => simp [referenceItems, ih]

theorem referenceMembers_eq (members : List (String × Json N)) :
    referenceMembers str num members = members.map fun m => (m.1, reference str num m.2) := by
  induction members with
  | nil => simp [referenceMembers]
  | cons m ms ih => simp [referenceMembers, ih]

/-- The two encoders differ in the sort only. -/
theorem writeCanonical_eq_reference (v : Json N) :
    writeCanonical str num v = reference str num v := by
  induction v using Json.induction with
  | null => rfl
  | bool b => cases b <;> rfl
  | num n => rfl
  | str s => rfl
  | arr items ih =>
    rw [writeCanonical_arr, reference, referenceItems_eq, List.map_congr_left ih]
  | obj members ih =>
    have hmembers : writeMembers str num members = referenceMembers str num members := by
      rw [writeMembers_eq, referenceMembers_eq]
      exact List.map_congr_left fun m hm => by rw [ih m hm]
    rw [writeCanonical, reference, hmembers, byCodePoint_eq]

theorem writesItems_iff {items : List (Json N)} {texts : List (List UInt8)}
    (h : ∀ v ∈ items, ∀ out, WritesCanonical str num v out ↔ out = writeCanonical str num v) :
    WritesItems str num items texts ↔ texts = items.map (writeCanonical str num) := by
  induction items generalizing texts with
  | nil => simp [WritesItems]
  | cons v vs ih =>
    obtain ⟨hv, hvs⟩ := List.forall_mem_cons.mp h
    simp only [WritesItems, hv, ih hvs, List.map_cons]
    simp

theorem writesMembers_iff {members : List (String × Json N)} {texts : List (String × List UInt8)}
    (h : ∀ m ∈ members, ∀ out, WritesCanonical str num m.2 out ↔ out = writeCanonical str num m.2) :
    WritesMembers str num members texts ↔
      texts = members.map fun m => (m.1, writeCanonical str num m.2) := by
  induction members generalizing texts with
  | nil => simp [WritesMembers]
  | cons m ms ih =>
    obtain ⟨hm, hms⟩ := List.forall_mem_cons.mp h
    simp only [WritesMembers, hm, ih hms, List.map_cons]
    simp

/-- With distinct keys there is one sorted order, so there is one text. -/
theorem writesCanonical_iff {v : Json N} (hv : v.distinctKeys = true) (out : List UInt8) :
    WritesCanonical str num v out ↔ out = writeCanonical str num v := by
  induction v using Json.induction generalizing out with
  | null => rfl
  | bool b => cases b <;> rfl
  | num n => rfl
  | str s => rfl
  | arr items ih =>
    have hitems := Json.distinctKeys_arr.mp hv
    simp only [WritesCanonical,
      writesItems_iff str num fun v hmem out => ih v hmem (hitems v hmem) out,
      exists_eq_left, writeCanonical_arr]
  | obj members ih =>
    obtain ⟨hkeys, hmembers⟩ := Json.distinctKeys_obj.mp hv
    have htexts : ((writeMembers str num members).map fun m => sortKey m.1).Nodup := by
      rw [writeMembers_eq, List.map_map]
      exact nodup_sortKeys hkeys
    simp only [WritesCanonical,
      writesMembers_iff str num fun m hmem out => ih m hmem (hmembers m hmem) out,
      ← writeMembers_eq, exists_and_left, exists_eq_left, writeCanonical]
    constructor
    · rintro ⟨entries, hperm, hsorted, rfl⟩
      rw [keySort_unique _ htexts hperm hsorted]
      rfl
    · rintro rfl
      exact ⟨_, sortMembers_perm _, keySort_sorted _ _, rfl⟩

end Reference

/-- **The canonical encoding is the documented one.** For every value, whatever order its maps list
their members in and whichever sort is used, the bytes are those of the reference encoder. -/
theorem canonical_is_reference {N : Type} (str : String → List UInt8) (num : N → List UInt8)
    {v : Json N} (hv : v.distinctKeys = true) :
    writeCanonical str num v = reference str num v ∧
      (∀ out, WritesCanonical str num v out ↔ out = reference str num v) ∧
      ∀ w : Json N, w.distinctKeys = true → w.Equiv v →
        ∀ out, WritesCanonical str num w out ↔ out = reference str num v := by
  refine ⟨writeCanonical_eq_reference str num v, fun out => ?_, fun w hw hequiv out => ?_⟩
  · rw [writesCanonical_iff str num hv, writeCanonical_eq_reference]
  · rw [writesCanonical_iff str num hw, writeCanonical_eq, (canon_eq_iff hw hv).mpr hequiv,
      ← writeCanonical_eq, writeCanonical_eq_reference]

/-- U+FF61 comes before U+1F600, though not in UTF-16. No character of these keys is escaped. -/
theorem canonical_is_reference_astral :
    WritesCanonical (fun s => utf8 ("\"" ++ s ++ "\"")) Empty.elim
      (.obj [("😀", .null), ("｡", .bool true)])
      (utf8 "\x7b\"｡\":true,\"😀\":null\x7d") :=
  ((canonical_is_reference _ Empty.elim (by decide +kernel)).2.1 _).mpr (by decide +kernel)

end PulseStream
