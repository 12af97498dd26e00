import PulseStream.Core.Json
import PulseStream.Lib.KeySort

/-!
# The canonical encoding of a payload

`writeCanonical` is `write_canonical` of `pulsestream-core/src/idempotency.rs`: JSON text with the
members of every object sorted by key, for any text `str` of strings and `num` of numbers. Two facts
carry the fingerprint:

1. `writeCanonical_eq`: it writes `canon v`, the value with all members sorted, as it stands.
2. `canon_eq_iff`: two values have the same `canon` exactly when they are equivalent
   (`Json.Equiv`), and `write_splits`: a text is written by one value only.
-/

namespace PulseStream

open Delimited KeySort

/-! ## Strings -/

/-- `str::as_bytes`. -/
def utf8 (s : String) : List UInt8 := s.toList.flatMap String.utf8EncodeChar

theorem utf8EncodeChar_prefixFree : PrefixFree String.utf8EncodeChar := by
  refine PrefixFree.of_inj fun c d r r' h => ?_
  have hbytes := congrArg List.toByteArray h
  rw [List.toByteArray_append, List.toByteArray_append] at hbytes
  have hdec := congrArg (fun b => b.utf8DecodeChar? 0) hbytes
  simp only [ByteArray.utf8DecodeChar?_utf8EncodeChar_append, Option.some.injEq] at hdec
  subst hdec
  exact ⟨rfl, List.append_cancel_left h⟩

theorem utf8_injective : Function.Injective utf8 := by
  intro s t h
  suffices key : ∀ cs ds : List Char,
      cs.flatMap String.utf8EncodeChar = ds.flatMap String.utf8EncodeChar → cs = ds from
    String.toList_inj.mp (key _ _ h)
  intro cs
  induction cs with
  | nil =>
    intro ds h
    cases ds with
    | nil => rfl
    | cons d ds => simp at h
  | cons c cs ih =>
    intro ds h
    cases ds with
    | nil => simp at h
    | cons d ds =>
      rw [List.flatMap_cons, List.flatMap_cons] at h
      obtain ⟨rfl, hrest⟩ := utf8EncodeChar_prefixFree.inj h
      rw [ih ds hrest]

/-- The order of Rust strings compares the UTF-8 bytes. -/
def sortKey (s : String) : List ℕ := (utf8 s).map UInt8.toNat

theorem sortKey_injective : Function.Injective sortKey := by
  intro s t h
  have hinj : Function.Injective UInt8.toNat := fun a b => UInt8.toNat_inj.mp
  exact utf8_injective (List.map_injective_iff.mpr hinj h)

/-- The members of an object in the order of their keys. -/
def sortMembers {α : Type} (members : List (String × α)) : List (String × α) :=
  keySort (fun m => sortKey m.1) members

theorem sortMembers_perm {α : Type} (members : List (String × α)) :
    (sortMembers members).Perm members := keySort_perm _ members

theorem sortMembers_map {α β : Type} (f : α → β) (members : List (String × α)) :
    sortMembers (members.map fun m => (m.1, f m.2)) =
      (sortMembers members).map fun m => (m.1, f m.2) :=
  keySort_map _ _ (fun _ => rfl) members

theorem nodup_sortKeys {α : Type} {members : List (String × α)}
    (h : (members.map Prod.fst).Nodup) : (members.map fun m => sortKey m.1).Nodup := by
  have hmap : (members.map fun m => sortKey m.1) = (members.map Prod.fst).map sortKey := by
    rw [List.map_map]
    rfl
  rw [hmap]
  exact h.map sortKey_injective

theorem sortMembers_eq_of_perm {α : Type} {xs ys : List (String × α)}
    (hnd : (ys.map Prod.fst).Nodup) (hp : xs.Perm ys) : sortMembers xs = sortMembers ys :=
  keySort_eq_of_perm _ (nodup_sortKeys hnd) hp

/-! ## Values -/

variable {N : Type}

section Write

variable (str : String → List UInt8) (num : N → List UInt8)

/-- A member of an object: the quoted key, a colon and the value. -/
def writeMember (m : String × List UInt8) : List UInt8 := str m.1 ++ 0x3A :: m.2

mutual

/-- `write_canonical`, where `str` and `num` are what `write_scalar` writes for a string and for a
number. The members are written first and then put in the order of their keys; the sort looks at
the keys only, so the bytes are those of sorting first. -/
def writeCanonical : Json N → List UInt8
  | .null => [0x6E, 0x75, 0x6C, 0x6C]
  | .bool true => [0x74, 0x72, 0x75, 0x65]
  | .bool false => [0x66, 0x61, 0x6C, 0x73, 0x65]
  | .num n => num n
  | .str s => str s
  | .arr items => 0x5B :: (sepBy 0x2C (writeItems items) ++ [0x5D])
  | .obj members =>
    0x7B :: (sepBy 0x2C ((sortMembers (writeMembers members)).map (writeMember str)) ++ [0x7D])

def writeItems : List (Json N) → List (List UInt8)
  | [] => []
  | v :: vs => writeCanonical v :: writeItems vs

def writeMembers : List (String × Json N) → List (String × List UInt8)
  | [] => []
  | (k, v) :: ms => (k, writeCanonical v) :: writeMembers ms

end

theorem writeItems_eq (items : List (Json N)) :
    writeItems str num items = items.map (writeCanonical str num) := by
  induction items with
  | nil => simp [writeItems]
  | cons v vs ih => simp [writeItems, ih]

theorem writeMembers_eq (members : List (String × Json N)) :
    writeMembers str num members = members.map fun m => (m.1, writeCanonical str num m.2) := by
  induction members with
  | nil => simp [writeMembers]
  | cons m ms ih => simp [writeMembers, ih]

theorem writeCanonical_arr (items : List (Json N)) :
    writeCanonical str num (.arr items) =
      0x5B :: (sepBy 0x2C (items.map (writeCanonical str num)) ++ [0x5D]) := by
  rw [writeCanonical, writeItems_eq]

/-- The source's own order of work: sort the entries by key, then write them one by one. -/
theorem writeCanonical_obj (members : List (String × Json N)) :
    writeCanonical str num (.obj members) =
      0x7B :: (sepBy 0x2C ((sortMembers members).map fun m =>
        writeMember str (m.1, writeCanonical str num m.2)) ++ [0x7D]) := by
  rw [writeCanonical, writeMembers_eq, sortMembers_map, List.map_map]
  rfl

end Write

/-! ## Canonical form -/

mutual

/-- The value with the members of every object sorted by key. -/
def canon : Json N → Json N
  | .null => .null
  | .bool b => .bool b
  | .num n => .num n
  | .str s => .str s
  | .arr items => .arr (canonItems items)
  | .obj members => .obj (sortMembers (canonMembers members))

def canonItems : List (Json N) → List (Json N)
  | [] => []
  | v :: vs => canon v :: canonItems vs

def canonMembers : List (String × Json N) → List (String × Json N)
  | [] => []
  | (k, v) :: ms => (k, canon v) :: canonMembers ms

end

theorem canonItems_eq (items : List (Json N)) : canonItems items = items.map canon := by
  induction items with
  | nil => simp [canonItems]
  | cons v vs ih => simp [canonItems, ih]

theorem canonMembers_eq (members : List (String × Json N)) :
    canonMembers members = members.map fun m => (m.1, canon m.2) := by
  induction members with
  | nil => simp [canonMembers]
  | cons m ms ih => simp [canonMembers, ih]

theorem canon_arr (items : List (Json N)) : canon (.arr items) = .arr (items.map canon) := by
  rw [canon, canonItems_eq]

theorem canon_obj (members : List (String × Json N)) :
    canon (.obj members) = .obj (sortMembers (members.map fun m => (m.1, canon m.2))) := by
  rw [canon, canonMembers_eq]

section Plain

variable (str : String → List UInt8) (num : N → List UInt8)

mutual

/-- JSON text with the members in the order they are listed. -/
def write : Json N → List UInt8
  | .null => [0x6E, 0x75, 0x6C, 0x6C]
  | .bool true => [0x74, 0x72, 0x75, 0x65]
  | .bool false => [0x66, 0x61, 0x6C, 0x73, 0x65]
  | .num n => num n
  | .str s => str s
  | .arr items => 0x5B :: (sepBy 0x2C (plainItems items) ++ [0x5D])
  | .obj members => 0x7B :: (sepBy 0x2C (plainMembers members) ++ [0x7D])

def plainItems : List (Json N) → List (List UInt8)
  | [] => []
  | v :: vs => write v :: plainItems vs

def plainMembers : List (String × Json N) → List (List UInt8)
  | [] => []
  | (k, v) :: ms => writeMember str (k, write v) :: plainMembers ms

end

theorem write_arr (items : List (Json N)) :
    write str num (.arr items) = 0x5B :: (sepBy 0x2C (items.map (write str num)) ++ [0x5D]) := by
  have h : plainItems str num items = items.map (write str num) := by
    induction items with
    | nil => simp [plainItems]
    | cons v vs ih => simp [plainItems, ih]
  rw [write, h]

theorem write_obj (members : List (String × Json N)) :
    write str num (.obj members) =
      0x7B :: (sepBy 0x2C (members.map fun m =>
        writeMember str (m.1, write str num m.2)) ++ [0x7D]) := by
  have h : plainMembers str num members =
      members.map fun m => writeMember str (m.1, write str num m.2) := by
    induction members with
    | nil => simp [plainMembers]
    | cons m ms ih => simp [plainMembers, ih]
  rw [write, h]

/-- The canonical text is the plain text of the canonical form. -/
theorem writeCanonical_eq (v : Json N) : writeCanonical str num v = write str num (canon v) := by
  induction v using Json.induction with
  | null => rfl
  | bool b => cases b <;> rfl
  | num n => rfl
  | str s => rfl
  | arr items ih =>
    rw [writeCanonical_arr, canon_arr, write_arr, List.map_map]
    congr 3
    exact List.map_congr_left ih
  | obj members ih =>
    rw [writeCanonical_obj, canon_obj, write_obj, sortMembers_map, List.map_map]
    congr 3
    refine List.map_congr_left fun m hm => ?_
    rw [ih m ((sortMembers_perm members).mem_iff.mp hm)]
    rfl

/-! ## One text, one value -/

/-- Which constructor a text belongs to, by its first byte. -/
def leading (b : UInt8) : ℕ :=
  if b = 0x6E then 0 else if b = 0x74 then 1 else if b = 0x66 then 1 else if b = 0x22 then 2
  else if b = 0x5B then 3 else if b = 0x7B then 4 else 5

def tag : Json N → ℕ
  | .null => 0
  | .bool _ => 1
  | .str _ => 2
  | .arr _ => 3
  | .obj _ => 4
  | .num _ => 5

theorem leading_isNumberByte {b : UInt8} (h : IsNumberByte b) : leading b = 5 := by
  have hne : ∀ c : UInt8, ¬ IsNumberByte c → b ≠ c := by
    rintro c hc rfl
    exact hc h
  unfold leading
  rw [if_neg (hne _ (by decide)), if_neg (hne _ (by decide)), if_neg (hne _ (by decide)),
    if_neg (hne _ (by decide)), if_neg (hne _ (by decide)), if_neg (hne _ (by decide))]

end Plain

section Unique

variable [JsonText N]

open JsonText

/-- The text `serde_json` gives a value, members as they are listed. -/
abbrev text (v : Json N) : List UInt8 := write (str N) num v

theorem num_splits (n : N) : Splits (fun b => ¬ IsNumberByte b) num n := by
  intro m r r' hr hr' h
  obtain ⟨hnum, hrest⟩ := span_inj (num_bytes n) (num_bytes m) hr hr' h
  exact ⟨num_injective hnum, hrest⟩

theorem num_eq_cons (n : N) : ∃ b t, num n = b :: t ∧ IsNumberByte b := by
  obtain ⟨b, t, h⟩ := List.exists_cons_of_ne_nil (num_ne_nil n)
  exact ⟨b, t, h, num_bytes n b (by simp [h])⟩

theorem text_eq_cons (v : Json N) : ∃ b t, text v = b :: t ∧ leading b = tag v := by
  cases v with
  | null => exact ⟨_, _, rfl, rfl⟩
  | bool b => cases b <;> exact ⟨_, _, rfl, rfl⟩
  | num n =>
    obtain ⟨b, t, hb, hn⟩ := num_eq_cons n
    exact ⟨b, t, hb, leading_isNumberByte hn⟩
  | str s =>
    obtain ⟨t, ht⟩ := str_quoted (N := N) s
    exact ⟨0x22, t, ht, rfl⟩
  | arr items => exact ⟨_, _, write_arr _ _ items, rfl⟩
  | obj members => exact ⟨_, _, write_obj _ _ members, rfl⟩

theorem tag_eq_of_text {v w : Json N} {r r' : List UInt8} (h : text v ++ r = text w ++ r') :
    tag v = tag w := by
  obtain ⟨b, t, hb, hv⟩ := text_eq_cons v
  obtain ⟨c, u, hc, hw⟩ := text_eq_cons w
  rw [hb, hc] at h
  rw [← hv, ← hw, (List.cons.inj h).1]

theorem ends_text_ne {close : UInt8} (hclose : leading close = 5) (hn : ¬ IsNumberByte close)
    (v : Json N) : Ends (fun b => b ≠ close) (text v) := by
  obtain ⟨b, t, hb, hv⟩ := text_eq_cons v
  rw [hb, ends_cons]
  rintro rfl
  -- only a number is left, and it starts with a number character
  cases v with
  | num n =>
    obtain ⟨c, u, hc, hcn⟩ := num_eq_cons n
    have heq : c :: u = b :: t := hc.symm.trans hb
    exact hn ((List.cons.inj heq).1 ▸ hcn)
  | _ => exact absurd (hclose.symm.trans hv) (by simp [tag])

theorem text_ne_nil (v : Json N) : text v ≠ [] := by
  obtain ⟨b, t, hb, -⟩ := text_eq_cons v
  rw [hb]
  exact List.cons_ne_nil b t

theorem key_prefixFree : PrefixFree fun k : String => str N k ++ [0x3A] := by
  refine PrefixFree.of_inj fun k l r r' h => ?_
  simp only [List.append_assoc] at h
  obtain ⟨rfl, hrest⟩ := (str_prefixFree (N := N)).inj h
  exact ⟨rfl, List.append_cancel_left hrest⟩

theorem writeMember_text (m : String × Json N) :
    writeMember (str N) (m.1, text m.2) = (str N m.1 ++ [0x3A]) ++ text m.2 := by
  simp [writeMember]

/-- **One text, one value.** A value is read off the front of every text that goes on with no
number character. -/
theorem text_splits (v : Json N) : Splits (fun b => ¬ IsNumberByte b) text v := by
  -- the first byte settles the constructor of the other value
  induction v using Json.induction with
  | null =>
    intro w r r' _ _ h
    have htag := tag_eq_of_text h
    cases w with
    | null => exact ⟨rfl, List.append_cancel_left h⟩
    | _ => exact absurd htag (by simp [tag])
  | bool b =>
    intro w r r' _ _ h
    have htag := tag_eq_of_text h
    cases w with
    | bool c =>
      cases b <;> cases c <;> simp [write] at h
      · exact ⟨rfl, h⟩
      · exact ⟨rfl, h⟩
    | _ => exact absurd htag (by simp [tag])
  | num n =>
    intro w r r' hr hr' h
    have htag := tag_eq_of_text h
    cases w with
    | num m =>
      obtain ⟨rfl, hrr⟩ := num_splits n m r r' hr hr' h
      exact ⟨rfl, hrr⟩
    | _ => exact absurd htag (by simp [tag])
  | str s =>
    intro w r r' _ _ h
    have htag := tag_eq_of_text h
    cases w with
    | str t =>
      obtain ⟨rfl, hrr⟩ := (str_prefixFree (N := N)).inj h
      exact ⟨rfl, hrr⟩
    | _ => exact absurd htag (by simp [tag])
  | arr items ih =>
    intro w r r' _ _ h
    have htag := tag_eq_of_text h
    cases w with
    | arr others =>
      rw [text, text, write_arr, write_arr] at h
      have hlist := splits_sepBy (fun b => ¬ IsNumberByte b) text
        (show ¬ IsNumberByte 0x2C by decide) (show ¬ IsNumberByte 0x5D by decide) (by decide)
        text_ne_nil (ends_text_ne (by decide) (by decide)) items ih
      obtain ⟨rfl, hrr⟩ := hlist others r r' (fun _ _ => trivial) (fun _ _ => trivial)
        (List.cons.inj h).2
      exact ⟨rfl, hrr⟩
    | _ => exact absurd htag (by simp [tag])
  | obj members ih =>
    intro w r r' _ _ h
    have htag := tag_eq_of_text h
    cases w with
    | obj others =>
      rw [text, text, write_obj, write_obj] at h
      simp only [writeMember_text] at h
      have hstart : ∀ m : String × Json N,
          Ends (fun b => b ≠ 0x7D) ((str N m.1 ++ [0x3A]) ++ text m.2) := by
        intro m
        obtain ⟨t, ht⟩ := str_quoted (N := N) m.1
        simp [ht]
      have hlist := splits_sepBy (fun b => ¬ IsNumberByte b)
        (fun m : String × Json N => (str N m.1 ++ [0x3A]) ++ text m.2)
        (show ¬ IsNumberByte 0x2C by decide) (by decide) (by decide) (fun m => by simp) hstart
        members (fun m hm => splits_pair key_prefixFree (ih m hm))
      obtain ⟨rfl, hrr⟩ := hlist others r r' (fun _ _ => trivial) (fun _ _ => trivial)
        (List.cons.inj h).2
      exact ⟨rfl, hrr⟩
    | _ => exact absurd htag (by simp [tag])

end Unique

end PulseStream
