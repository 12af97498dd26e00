import PulseStream.Core.Canonical
import PulseStream.Core.Event

/-!
# Idempotency keys and request fingerprints

`IdempotencyKey.parse` and `RequestFingerprint::compute` of
`pulsestream-core/src/idempotency.rs`. `fingerprintInput_eq_iff`: the bytes that are hashed agree
for two requests exactly when their source, their type and, up to the order of members, their
payload agree.
-/

namespace PulseStream

open Delimited

/-! ## Keys -/

/-- Maximum idempotency key length, in characters. -/
def maxIdempotencyKeyChars : ℕ := 128

inductive IdempotencyKeyError where
  | missing
  | invalid
  deriving DecidableEq, Repr

/-- `u8::is_ascii_graphic`. -/
def isAsciiGraphic (b : UInt8) : Bool := 0x21 ≤ b && b ≤ 0x7E

/-- The test of `IdempotencyKey::parse`. -/
def validKey (value : String) : Bool :=
  !(utf8 value).isEmpty && decide ((utf8 value).length ≤ maxIdempotencyKeyChars) &&
    (utf8 value).all isAsciiGraphic

/-- A producer-supplied idempotency key: 1 to 128 visible ASCII characters. -/
structure IdempotencyKey where
  expose : String
  valid : validKey expose = true

def IdempotencyKey.parse (value : String) : Except IdempotencyKeyError IdempotencyKey :=
  if h : validKey value = true then .ok ⟨value, h⟩ else .error .invalid

/-- The key of the sample runs. -/
def IdempotencyKey.short : IdempotencyKey := ⟨"k", by decide⟩

/-! ## Equivalent payloads -/

variable {N : Type}

namespace Json

mutual

/-- Two payloads are equivalent when they differ in the order of members only: same constructor,
identical scalars, pairwise equivalent items, and objects with the same keys and equivalent values
under each key. -/
def Equiv : Json N → Json N → Prop
  | .null, .null => True
  | .bool a, .bool b => a = b
  | .num a, .num b => a = b
  | .str a, .str b => a = b
  | .arr xs, .arr ys => EquivItems xs ys
  | .obj xs, .obj ys => (∀ k, k ∈ xs.map Prod.fst ↔ k ∈ ys.map Prod.fst) ∧ EquivMembers xs ys
  | _, _ => False

def EquivItems : List (Json N) → List (Json N) → Prop
  | [], [] => True
  | x :: xs, y :: ys => Equiv x y ∧ EquivItems xs ys
  | _, _ => False

def EquivMembers : List (String × Json N) → List (String × Json N) → Prop
  | [], _ => True
  | (k, x) :: xs, ys => (∀ y, (k, y) ∈ ys → Equiv x y) ∧ EquivMembers xs ys

end

theorem equivItems_iff {xs ys : List (Json N)} :
    EquivItems xs ys ↔ List.Forall₂ Equiv xs ys := by
  induction xs generalizing ys with
  | nil => cases ys <;> simp [EquivItems]
  | cons x xs ih => cases ys <;> simp [EquivItems, ih]

theorem equivMembers_iff {xs ys : List (String × Json N)} :
    EquivMembers xs ys ↔ ∀ k x y, (k, x) ∈ xs → (k, y) ∈ ys → Equiv x y := by
  induction xs with
  | nil => simp [EquivMembers]
  | cons m xs ih =>
    obtain ⟨l, z⟩ := m
    rw [EquivMembers, ih]
    constructor
    · rintro ⟨hz, hxs⟩ k x y hx hy
      rcases List.mem_cons.mp hx with hx | hx
      · cases hx
        exact hz y hy
      · exact hxs k x y hx hy
    · intro h
      exact ⟨fun y hy => h l z y (by simp) hy, fun k x y hx hy => h k x y (by simp [hx]) hy⟩

theorem equiv_arr {xs ys : List (Json N)} :
    Equiv (.arr xs) (.arr ys) ↔ List.Forall₂ Equiv xs ys := by
  rw [Equiv, equivItems_iff]

theorem equiv_obj {xs ys : List (String × Json N)} :
    Equiv (.obj xs) (.obj ys) ↔ (∀ k, k ∈ xs.map Prod.fst ↔ k ∈ ys.map Prod.fst) ∧
      ∀ k x y, (k, x) ∈ xs → (k, y) ∈ ys → Equiv x y := by
  rw [Equiv, equivMembers_iff]

end Json

/-! ## Canonical forms are equal exactly for equivalent payloads -/

theorem map_eq_map_iff_forall₂ {α β : Type} {f : α → β} {R : α → α → Prop} {xs ys : List α}
    (h : ∀ x ∈ xs, ∀ y ∈ ys, f x = f y ↔ R x y) :
    xs.map f = ys.map f ↔ List.Forall₂ R xs ys := by
  induction xs generalizing ys with
  | nil => cases ys <;> simp
  | cons x xs ih =>
    cases ys with
    | nil => simp
    | cons y ys =>
      rw [List.map_cons, List.map_cons, List.cons.injEq, List.forall₂_cons,
        h x (by simp) y (by simp), ih fun a ha b hb => h a (by simp [ha]) b (by simp [hb])]

theorem eq_of_mem_of_nodup_fst {α : Type} {ms : List (String × α)} (hnd : (ms.map Prod.fst).Nodup)
    {k : String} {a b : α} (ha : (k, a) ∈ ms) (hb : (k, b) ∈ ms) : a = b := by
  have h := List.inj_on_of_nodup_map hnd ha hb rfl
  exact (Prod.mk.inj h).2

theorem sortMembers_eq_iff {α : Type} {xs ys : List (String × α)} (hx : (xs.map Prod.fst).Nodup)
    (hy : (ys.map Prod.fst).Nodup) :
    sortMembers xs = sortMembers ys ↔ (∀ k, k ∈ xs.map Prod.fst ↔ k ∈ ys.map Prod.fst) ∧
      ∀ k a b, (k, a) ∈ xs → (k, b) ∈ ys → a = b := by
  constructor
  · intro h
    have hp : xs.Perm ys := (sortMembers_perm xs).symm.trans (h ▸ sortMembers_perm ys)
    refine ⟨fun k => (hp.map Prod.fst).mem_iff, fun k a b ha hb => ?_⟩
    exact eq_of_mem_of_nodup_fst hy (hp.mem_iff.mp ha) hb
  · rintro ⟨hkeys, hvals⟩
    refine sortMembers_eq_of_perm hy ?_
    rw [List.perm_ext_iff_of_nodup (List.Nodup.of_map _ hx) (List.Nodup.of_map _ hy)]
    rintro ⟨k, a⟩
    constructor
    · intro ha
      obtain ⟨⟨l, b⟩, hb, rfl⟩ := List.mem_map.mp ((hkeys k).mp (List.mem_map_of_mem ha))
      rwa [hvals l a b ha hb]
    · intro ha
      obtain ⟨⟨l, b⟩, hb, rfl⟩ := List.mem_map.mp ((hkeys k).mpr (List.mem_map_of_mem ha))
      rwa [← hvals l b a hb ha]

theorem mem_canonMembers {ms : List (String × Json N)} {k : String} {c : Json N} :
    (k, c) ∈ ms.map (fun m => (m.1, canon m.2)) ↔ ∃ x, (k, x) ∈ ms ∧ canon x = c := by
  simp only [List.mem_map, Prod.mk.injEq, Prod.exists]
  constructor
  · rintro ⟨l, x, hx, rfl, rfl⟩
    exact ⟨x, hx, rfl⟩
  · rintro ⟨x, hx, rfl⟩
    exact ⟨k, x, hx, rfl, rfl⟩

theorem canon_eq_iff {v w : Json N} (hv : v.distinctKeys = true) (hw : w.distinctKeys = true) :
    canon v = canon w ↔ v.Equiv w := by
  induction v using Json.induction generalizing w with
  | null => cases w <;> simp [canon, Json.Equiv]
  | bool b => cases w <;> simp [canon, Json.Equiv]
  | num n => cases w <;> simp [canon, Json.Equiv]
  | str s => cases w <;> simp [canon, Json.Equiv]
  | arr items ih =>
    cases w with
    | arr others =>
      rw [Json.distinctKeys_arr] at hv hw
      rw [canon_arr, canon_arr, Json.equiv_arr, Json.arr.injEq]
      exact map_eq_map_iff_forall₂ fun x hx y hy => ih x hx (hv x hx) (hw y hy)
    | _ => simp [canon, Json.Equiv]
  | obj members ih =>
    cases w with
    | obj others =>
      rw [Json.distinctKeys_obj] at hv hw
      have hfst : ∀ ms : List (String × Json N),
          (ms.map fun m => (m.1, canon m.2)).map Prod.fst = ms.map Prod.fst := by
        intro ms
        rw [List.map_map]
        rfl
      rw [canon_obj, canon_obj, Json.equiv_obj, Json.obj.injEq,
        sortMembers_eq_iff (by rw [hfst]; exact hv.1) (by rw [hfst]; exact hw.1), hfst, hfst]
      refine and_congr Iff.rfl ?_
      constructor
      · intro h k x y hx hy
        refine (ih (k, x) hx (hv.2 _ hx) (hw.2 _ hy)).mp ?_
        exact h k _ _ (mem_canonMembers.mpr ⟨x, hx, rfl⟩) (mem_canonMembers.mpr ⟨y, hy, rfl⟩)
      · intro h k a b ha hb
        obtain ⟨x, hx, rfl⟩ := mem_canonMembers.mp ha
        obtain ⟨y, hy, rfl⟩ := mem_canonMembers.mp hb
        exact (ih (k, x) hx (hv.2 _ hx) (hw.2 _ hy)).mpr (h k x y hx hy)
    | _ => simp [canon, Json.Equiv]

/-! ## The canonical text of a payload -/

variable {F : Type} [JsonText (Number F)]

/-- `write_canonical` of a payload. -/
def canonicalText (v : Value F) : List UInt8 :=
  writeCanonical (JsonText.str (Number F)) JsonText.num v.json

/-- **Canonical texts.** Two payloads have the same canonical text exactly when they are
equivalent. -/
theorem canonicalText_eq_iff (v w : Value F) :
    canonicalText v = canonicalText w ↔ v.json.Equiv w.json := by
  rw [← canon_eq_iff v.distinct w.distinct, canonicalText, canonicalText, writeCanonical_eq,
    writeCanonical_eq]
  constructor
  · intro h
    refine (text_splits (canon v.json) (canon w.json) [] [] (by simp) (by simp) ?_).1
    rw [text, h]
  · intro h
    rw [h]

/-! ## Fingerprints -/

/-- Domain separator and version of the fingerprint encoding. -/
def fingerprintVersion : List UInt8 := utf8 "pulsestream.request-fingerprint.v1"

/-- The last `k` bytes of a number, most significant first. -/
def bytesBe : ℕ → ℕ → List UInt8
  | 0, _ => []
  | k + 1, n => bytesBe k (n / 256) ++ [UInt8.ofNat n]

/-- `(part.len() as u64).to_be_bytes()` followed by the part. -/
def lengthPrefixed (part : List UInt8) : List UInt8 := bytesBe 8 part.length ++ part

/-- SHA-256 output. -/
structure RequestFingerprint where
  asBytes : List UInt8
  length_eq : asBytes.length = 32

/-- The fingerprint of all zeros, for sample runs. -/
def RequestFingerprint.zero : RequestFingerprint := ⟨List.replicate 32 0, by decide⟩

/-- The bytes `RequestFingerprint::compute` feeds to the hash. -/
def fingerprintInput (source : EventSource) (eventType : EventType) (payload : Value F) :
    List UInt8 :=
  [fingerprintVersion, utf8 source.asStr, utf8 eventType.asStr].flatMap lengthPrefixed ++
    lengthPrefixed (canonicalText payload)

/-- `RequestFingerprint::compute`, for the hash function `sha256`. -/
def RequestFingerprint.compute (sha256 : List UInt8 → RequestFingerprint) (source : EventSource)
    (eventType : EventType) (payload : Value F) : RequestFingerprint :=
  sha256 (fingerprintInput source eventType payload)

theorem length_bytesBe (k n : ℕ) : (bytesBe k n).length = k := by
  induction k generalizing n with
  | zero => rfl
  | succ k ih => rw [bytesBe, List.length_append, ih, List.length_singleton]

theorem bytesBe_inj {k m n : ℕ} (hm : m < 256 ^ k) (hn : n < 256 ^ k)
    (h : bytesBe k m = bytesBe k n) : m = n := by
  induction k generalizing m n with
  | zero =>
    rw [pow_zero] at hm hn
    omega
  | succ k ih =>
    rw [bytesBe, bytesBe] at h
    obtain ⟨hhigh, hlow⟩ := List.append_inj' h rfl
    have hdiv : m / 256 = n / 256 := by
      rw [pow_succ] at hm hn
      exact ih (Nat.div_lt_of_lt_mul (by omega)) (Nat.div_lt_of_lt_mul (by omega)) hhigh
    have hmod : m % 256 = n % 256 := by
      have hval := congrArg UInt8.toNat (List.cons.inj hlow).1
      rwa [UInt8.toNat_ofNat', UInt8.toNat_ofNat'] at hval
    omega

/-- A length-prefixed part is read off the front, as long as its length fits the prefix. -/
theorem lengthPrefixed_inj {p q r r' : List UInt8} (hp : p.length < 2 ^ 64)
    (hq : q.length < 2 ^ 64) (h : lengthPrefixed p ++ r = lengthPrefixed q ++ r') :
    p = q ∧ r = r' := by
  unfold lengthPrefixed at h
  rw [List.append_assoc, List.append_assoc] at h
  obtain ⟨hlen, hrest⟩ := List.append_inj h (by rw [length_bytesBe, length_bytesBe])
  exact List.append_inj hrest (bytesBe_inj (by simpa using hp) (by simpa using hq) hlen)

theorem length_utf8_le (s : String) : (utf8 s).length ≤ 4 * s.toList.length := by
  unfold utf8
  induction s.toList with
  | nil => simp
  | cons c cs ih =>
    have hc := Char.utf8Size_le_four c
    rw [List.flatMap_cons, List.length_append, String.length_utf8EncodeChar, List.length_cons]
    omega

theorem Label.length_utf8_lt {field : String} {max : ℕ} (l : Label field max)
    (hmax : max ≤ 150) : (utf8 l.asStr).length < 2 ^ 64 := by
  have h := length_utf8_le l.asStr
  have hl := l.length_le
  omega

theorem fingerprintInput_parts (s₁ s₂ : EventSource) (t₁ t₂ : EventType) (p₁ p₂ : Value F) :
    fingerprintInput s₁ t₁ p₁ = fingerprintInput s₂ t₂ p₂ ↔
      s₁ = s₂ ∧ t₁ = t₂ ∧ canonicalText p₁ = canonicalText p₂ := by
  constructor
  · intro h
    unfold fingerprintInput at h
    simp only [List.flatMap_cons, List.flatMap_nil, List.append_assoc, List.nil_append] at h
    have h := List.append_cancel_left h
    obtain ⟨hs, h⟩ := lengthPrefixed_inj (s₁.length_utf8_lt (by decide))
      (s₂.length_utf8_lt (by decide)) h
    obtain ⟨ht, h⟩ := lengthPrefixed_inj (t₁.length_utf8_lt (by decide))
      (t₂.length_utf8_lt (by decide)) h
    -- the payload comes last: whatever its length, the eight bytes in front of it are its prefix
    have hp := (List.append_inj h (by rw [length_bytesBe, length_bytesBe])).2
    exact ⟨Label.ext (utf8_injective hs), Label.ext (utf8_injective ht), hp⟩
  · rintro ⟨rfl, rfl, hp⟩
    rw [fingerprintInput, fingerprintInput, hp]

/-- **Fingerprints.** The hashed bytes of two requests are equal exactly when the requests have
the same source, the same type and equivalent payloads. -/
theorem fingerprintInput_eq_iff (s₁ s₂ : EventSource) (t₁ t₂ : EventType) (p₁ p₂ : Value F) :
    fingerprintInput s₁ t₁ p₁ = fingerprintInput s₂ t₂ p₂ ↔
      s₁ = s₂ ∧ t₁ = t₂ ∧ p₁.json.Equiv p₂.json := by
  rw [fingerprintInput_parts, canonicalText_eq_iff]

end PulseStream
