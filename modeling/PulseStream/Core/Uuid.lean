import PulseStream.Core.Canonical
import PulseStream.Core.Event
import PulseStream.Lib.Hex

/-!
# The text of a UUID

`EventId::parse` and the `Display` of `EventId`. The text itself is the `uuid` crate's: it enters as
`UuidText`, of which only the round trip is used. `Uuid.hyphenated`, for sample runs, has the
hyphenated form alone.
-/

namespace PulseStream

/-- `Uuid::fmt` and `Uuid::try_parse` of the `uuid` crate. -/
class UuidText where
  format : Uuid → String
  tryParse : String → Option Uuid
  tryParse_format : ∀ u < 2 ^ 128, tryParse (format u) = some u

namespace EventId

variable [UuidText]

/-- The canonical text of an id. -/
def display (id : EventId) : String := UuidText.format id.uuid

def parse (value : String) : Option EventId := (UuidText.tryParse value).map EventId.mk

/-- **Round trip.** The text that a client is given for an event leads back to it. -/
theorem parse_display {id : EventId} (h : id.uuid < 2 ^ 128) : parse id.display = some id := by
  rw [parse, display, UuidText.tryParse_format _ h]
  rfl

end EventId

/-! ## The hyphenated form -/

/-- ASCII bytes as a string. -/
def asciiString (bs : List UInt8) : String := String.ofList (bs.map fun b => Char.ofNat b.toNat)

theorem utf8_asciiString {bs : List UInt8} (h : ∀ b ∈ bs, b < 0x80) :
    utf8 (asciiString bs) = bs := by
  have hone : ∀ b : UInt8, b < 0x80 → String.utf8EncodeChar (Char.ofNat b.toNat) = [b] := by
    decide +kernel
  unfold utf8 asciiString
  rw [String.toList_ofList, List.flatMap_map]
  induction bs with
  | nil => rfl
  | cons b bs ih =>
    rw [List.flatMap_cons, hone b (h b List.mem_cons_self),
      ih fun c hc => h c (List.mem_cons_of_mem _ hc)]
    rfl

namespace Uuid

/-- The groups of 8, 4, 4, 4 and 12 digits, with hyphens between them. -/
def hyphenate (ds : List UInt8) : List UInt8 :=
  ds.take 8 ++ 0x2D :: (ds.drop 8).take 4 ++ 0x2D :: (ds.drop 12).take 4 ++
    0x2D :: (ds.drop 16).take 4 ++ 0x2D :: ds.drop 20

/-- The hyphens are in their places, and the rest are digits. -/
def parseHyphenated (s : List UInt8) : Option Uuid :=
  if s.length = 36 ∧ s[8]? = some 0x2D ∧ s[13]? = some 0x2D ∧ s[18]? = some 0x2D ∧
      s[23]? = some 0x2D then
    Hex.read 0 (s.take 8 ++ (s.drop 9).take 4 ++ (s.drop 14).take 4 ++ (s.drop 19).take 4 ++
      s.drop 24)
  else none

theorem exists_groups {ds : List UInt8} (h : ds.length = 32) :
    ∃ a b c d e : List UInt8, ds = a ++ (b ++ (c ++ (d ++ e))) ∧ a.length = 8 ∧ b.length = 4 ∧
      c.length = 4 ∧ d.length = 4 ∧ e.length = 12 := by
  refine ⟨ds.take 8, (ds.drop 8).take 4, (ds.drop 12).take 4, (ds.drop 16).take 4, ds.drop 20,
    ?_, ?_, ?_, ?_, ?_, ?_⟩
  · conv_lhs => rw [← List.take_append_drop 8 ds, ← List.take_append_drop 4 (ds.drop 8),
      ← List.take_append_drop 4 ((ds.drop 8).drop 4),
      ← List.take_append_drop 4 (((ds.drop 8).drop 4).drop 4)]
    simp only [List.drop_drop]
  all_goals simp [h]

theorem parseHyphenated_hyphenate {ds : List UInt8} (h : ds.length = 32) :
    parseHyphenated (hyphenate ds) = Hex.read 0 ds := by
  obtain ⟨a, b, c, d, e, rfl, ha, hb, hc, hd, he⟩ := exists_groups h
  have htext : hyphenate (a ++ (b ++ (c ++ (d ++ e)))) =
      a ++ (0x2D :: (b ++ (0x2D :: (c ++ (0x2D :: (d ++ (0x2D :: e))))))) := by
    simp [hyphenate, List.drop_append, ha, hb, hc, hd, List.drop_eq_nil_of_le]
  rw [htext, parseHyphenated, if_pos (by simp [ha, hb, hc, hd, he])]
  simp [List.drop_append, ha, hb, hc, hd, List.drop_eq_nil_of_le]

theorem mem_hyphenate {ds : List UInt8} {b : UInt8} (h : b ∈ hyphenate ds) :
    b = 0x2D ∨ b ∈ ds := by
  have htake : ∀ m n, b ∈ (ds.drop m).take n → b ∈ ds :=
    fun m n hb => List.mem_of_mem_drop (List.mem_of_mem_take hb)
  have hfirst : b ∈ ds.take 8 → b ∈ ds := List.mem_of_mem_take
  have hlast : b ∈ ds.drop 20 → b ∈ ds := List.mem_of_mem_drop
  simp only [hyphenate, List.mem_append, List.mem_cons] at h
  grind

theorem parseHyphenated_write {u : Uuid} (h : u < 2 ^ 128) :
    parseHyphenated (utf8 (asciiString (hyphenate (Hex.write 32 u)))) = some u := by
  have hascii : ∀ b ∈ hyphenate (Hex.write 32 u), b < 0x80 := by
    intro b hb
    rcases mem_hyphenate hb with rfl | hb
    · decide
    · exact Hex.write_lt hb
  rw [utf8_asciiString hascii, parseHyphenated_hyphenate (Hex.length_write 32 u),
    Hex.read_write 0 (by simpa using h)]
  simp

/-- UUIDs in lowercase digits with hyphens, and no other form. -/
@[reducible] def hyphenated : UuidText where
  format u := asciiString (hyphenate (Hex.write 32 u))
  tryParse s := parseHyphenated (utf8 s)
  tryParse_format _ h := parseHyphenated_write h

end Uuid

end PulseStream
