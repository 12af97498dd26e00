import PulseStream.Store.Leases

/-!
# Payloads through the store

A payload is written as JSON text, stored as `JSONB`, printed and read again. Only numbers can
change on the way: `canonical_text_iff` says that the payload comes back with the same canonical
text exactly when each of its numbers does. Integers do, and floats whose plain decimal is read with
one rounding (`Number.Exact`); `-0.0` and floats whose plain decimal is read as an integer do not
(`Number.Lost`). `delivered_as_admitted` is about every event that is admitted and claimed.
-/

namespace PulseStream

open KeySort

variable {N : Type}

/-! ## Member order -/

theorem jsonbOrder_perm {α : Type} (members : List (String × α)) :
    (jsonbOrder members).Perm members := keySort_perm _ _

theorem jsonbOrder_map {α β : Type} (f : α → β) (members : List (String × α)) :
    jsonbOrder (members.map fun m => (m.1, f m.2)) =
      (jsonbOrder members).map fun m => (m.1, f m.2) :=
  keySort_map _ _ (fun _ => rfl) _

theorem reorder_map {M : Type} (f : M → N) (v : Json M) :
    reorder (v.map f) = (reorder v).map f := by
  induction v using Json.induction with
  | null => rfl
  | bool b => rfl
  | num n => rfl
  | str s => rfl
  | arr items ih =>
    simp only [Json.map_arr, reorder_arr, List.map_map, Json.arr.injEq]
    exact List.map_congr_left ih
  | obj members ih =>
    simp only [Json.map_obj, reorder_obj, List.map_map, Json.obj.injEq]
    rw [← jsonbOrder_map (Json.map f), List.map_map]
    congr 1
    refine List.map_congr_left fun m hm => ?_
    simp only [Function.comp_apply, ih m hm]

theorem distinctKeys_reorder {v : Json N} (h : v.distinctKeys = true) :
    (reorder v).distinctKeys = true := by
  induction v using Json.induction with
  | null => rfl
  | bool b => rfl
  | num n => rfl
  | str s => rfl
  | arr items ih =>
    rw [Json.distinctKeys_arr] at h
    rw [reorder_arr, Json.distinctKeys_arr, List.forall_mem_map]
    exact fun v hv => ih v hv (h v hv)
  | obj members ih =>
    rw [Json.distinctKeys_obj] at h
    rw [reorder_obj, Json.distinctKeys_obj, ((jsonbOrder_perm _).map Prod.fst).nodup_iff,
      map_fst_comp]
    refine ⟨h.1, fun m hm => ?_⟩
    obtain ⟨m', hm', rfl⟩ := List.mem_map.mp ((jsonbOrder_perm _).mem_iff.mp hm)
    exact ih m' hm' (h.2 m' hm')

theorem canon_reorder {v : Json N} (h : v.distinctKeys = true) : canon (reorder v) = canon v := by
  induction v using Json.induction with
  | null => rfl
  | bool b => rfl
  | num n => rfl
  | str s => rfl
  | arr items ih =>
    rw [Json.distinctKeys_arr] at h
    rw [reorder_arr, canon_arr, canon_arr, List.map_map, Json.arr.injEq]
    exact List.map_congr_left fun v hv => ih v hv (h v hv)
  | obj members ih =>
    rw [Json.distinctKeys_obj] at h
    rw [reorder_obj, canon_obj, canon_obj, Json.obj.injEq]
    have hcanon : (members.map fun m => (m.1, reorder m.2)).map (fun m => (m.1, canon m.2)) =
        members.map fun m => (m.1, canon m.2) := by
      rw [List.map_map]
      refine List.map_congr_left fun m hm => ?_
      simp only [Function.comp_apply, ih m hm (h.2 m hm)]
    refine sortMembers_eq_of_perm (by rw [map_fst_comp]; exact h.1) ?_
    rw [← hcanon]
    exact (jsonbOrder_perm _).map _

theorem mem_numbers_reorder {v : Json N} {n : N} : n ∈ (reorder v).numbers ↔ n ∈ v.numbers := by
  induction v using Json.induction with
  | null => rfl
  | bool b => rfl
  | num n => rfl
  | str s => rfl
  | arr items ih =>
    rw [reorder_arr, Json.numbers_arr, Json.numbers_arr, List.flatMap_map]
    simp only [List.mem_flatMap]
    exact exists_congr fun v => and_congr_right fun hv => ih v hv
  | obj members ih =>
    rw [reorder_obj, jsonbOrder_map, Json.numbers_obj, Json.numbers_obj, List.flatMap_map]
    simp only [List.mem_flatMap, (jsonbOrder_perm _).mem_iff]
    exact exists_congr fun m => and_congr_right fun hm => ih m hm

/-! ## What happens to a number -/

theorem equiv_map_iff {g : N → N} {v : Json N} (h : v.distinctKeys = true) :
    (v.map g).Equiv v ↔ ∀ n ∈ v.numbers, g n = n := by
  induction v using Json.induction with
  | null => simp [Json.map, Json.Equiv, Json.numbers]
  | bool b => simp [Json.map, Json.Equiv, Json.numbers]
  | num n => simp [Json.map, Json.Equiv, Json.numbers]
  | str s => simp [Json.map, Json.Equiv, Json.numbers]
  | arr items ih =>
    rw [Json.distinctKeys_arr] at h
    rw [Json.map_arr, Json.equiv_arr, List.forall₂_map_left_iff, List.forall₂_same,
      Json.numbers_arr]
    simp only [List.mem_flatMap, forall_exists_index, and_imp]
    constructor
    · intro heq n v hv hn
      exact (ih v hv (h v hv)).mp (heq v hv) n hn
    · intro heq v hv
      exact (ih v hv (h v hv)).mpr fun n hn => heq n v hv hn
  | obj members ih =>
    rw [Json.distinctKeys_obj] at h
    rw [Json.map_obj, Json.equiv_obj, map_fst_comp, Json.numbers_obj]
    simp only [List.mem_flatMap, forall_exists_index, and_imp, implies_true, true_and]
    constructor
    · intro heq n m hm hn
      refine (ih m hm (h.2 m hm)).mp (heq m.1 _ m.2 ?_ hm) n hn
      exact List.mem_map_of_mem (f := fun m : String × Json N => (m.1, m.2.map g)) hm
    · intro heq k x y hx hy
      obtain ⟨⟨k', z⟩, hz, hkx⟩ := List.mem_map.mp hx
      obtain ⟨rfl, rfl⟩ := Prod.mk.inj hkx
      obtain rfl := eq_of_mem_of_nodup_fst h.1 hz hy
      exact (ih (k', z) hz (h.2 _ hz)).mpr fun n hn => heq n (k', z) hz hn

/-- The text of the same value that `JSONB` prints: no exponent, no sign on zero. -/
def Token.plain (t : Token) : Token := numericOut (numericIn t)

namespace Token

theorem plain_integer (neg : Bool) (n : ℕ) :
    (⟨neg, n, 0, none⟩ : Token).plain = ⟨neg && n != 0, n, 0, none⟩ := rfl

theorem plain_neg (t : Token) : t.plain.neg = (t.neg && t.coeff != 0) := by
  simp only [plain, numericOut, numericIn]
  split_ifs <;> rfl

theorem plain_not_negZero (t : Token) : ¬t.plain.IsNegZero := by
  rintro ⟨hneg, hcoeff⟩
  rw [plain_neg] at hneg
  simp only [plain, numericOut, numericIn] at hcoeff
  split_ifs at hcoeff <;> simp_all

theorem value_plain (t : Token) : t.plain.value = t.value := by
  by_cases hzero : t.coeff = 0
  · simp only [value, plain, numericOut, numericIn, hzero]
    split_ifs <;> simp
  · have hneg : t.plain.neg = t.neg := by simp [plain_neg, hzero]
    have hmagnitude : (t.plain.coeff * 10 ^ (t.plain.exp.getD 0 - t.plain.scale) : ℚ) =
        t.coeff * 10 ^ (t.exp.getD 0 - t.scale) := by
      simp only [plain, numericOut, numericIn, Option.getD_none]
      split_ifs with hle
      · rw [zero_sub, Int.toNat_of_nonneg (by omega), neg_sub]
      · rw [Nat.cast_mul, Nat.cast_pow, Nat.cast_ofNat, Nat.cast_zero, sub_zero, zpow_zero, mul_one,
          ← zpow_natCast, Int.toNat_of_nonneg (by omega)]
    rw [value, value, hneg, hmagnitude]

end Token

section Stored

variable {F : Type} [SerdeJson F]

namespace Number

/-- What a number has become when it is delivered, if it can be read. -/
def stored (n : Number F) : Option (Number F) := ofToken n.token.plain

/-- An integer, or a float that is not `-0.0` and whose plain decimal is not read as an integer and
needs one rounding. -/
def Exact : Number F → Prop
  | .posInt _ _ => True
  | .negInt _ _ => True
  | .float f => ¬(SerdeJson.literal f).IsNegZero ∧ ¬(SerdeJson.literal f).plain.ReadsAsInteger ∧
      (SerdeJson.literal f).plain.OneRounding

/-- A float that is `-0.0` or whose plain decimal is read as an integer. -/
def Lost : Number F → Prop
  | .posInt _ _ => False
  | .negInt _ _ => False
  | .float f => (SerdeJson.literal f).IsNegZero ∨ (SerdeJson.literal f).plain.ReadsAsInteger

instance : DecidablePred (Exact (F := F)) := fun n => by
  cases n <;> unfold Exact <;> infer_instance

theorem stored_of_exact {n : Number F} (h : n.Exact) : n.stored = some n := by
  cases n with
  | posInt n hn =>
    rw [stored, token, Token.plain_integer]
    exact dif_pos ⟨⟨rfl, rfl⟩, rfl, hn⟩
  | negInt n hn =>
    have hsign : (true && n != 0) = true := by simpa using hn.1.ne'
    rw [stored, token, Token.plain_integer, hsign]
    rw [ofToken, dif_neg (by simp), dif_pos ⟨⟨rfl, rfl⟩, rfl, hn⟩]
  | float f =>
    obtain ⟨hzero, hint, hone⟩ := h
    have hnearest : SerdeJson.Nearest (SerdeJson.literal f).plain.value f := by
      rw [Token.value_plain]
      exact SerdeJson.literal_nearest f hzero
    rw [stored, token, ofToken_of_not_integer hint,
      SerdeJson.readFloat_exact _ f (Token.plain_not_negZero _) hint hone hnearest,
      Option.map_some]

theorem stored_of_lost {n : Number F} (h : n.Lost) : n.stored ≠ some n := by
  cases n with
  | posInt n hn => exact h.elim
  | negInt n hn => exact h.elim
  | float f =>
    intro hstored
    rw [stored, token] at hstored
    by_cases hint : (SerdeJson.literal f).plain.ReadsAsInteger
    · obtain ⟨m, hm, hfloat⟩ := ofToken_of_integer (F := F) hint
      exact hfloat f (Option.some.inj (hm.symm.trans hstored))
    · -- the sign of zero is gone
      obtain ⟨hneg, hcoeff⟩ := h.resolve_right hint
      rw [ofToken_of_not_integer hint, Option.map_eq_some_iff] at hstored
      obtain ⟨g, hread, hg⟩ := hstored
      obtain rfl := Number.float.inj hg
      have hsign := SerdeJson.readFloat_neg _ g hread
      rw [Token.plain_neg, hneg, hcoeff] at hsign
      exact absurd hsign (by decide)

end Number

theorem jsonbOut_of_jsonbIn (v : Value F) {j : Jsonb}
    (hj : jsonbIn (v.json.map Number.token) = some j) :
    jsonbOut j = (reorder v.json).map fun n => n.token.plain := by
  unfold jsonbIn at hj
  split_ifs at hj
  obtain rfl := Option.some.inj hj
  rw [jsonbOut, ← reorder_map, ← reorder_map, Json.map_map, Json.map_map]
  rfl

/-- **Round trip.** A stored payload is read back with the same canonical text exactly when each of
its numbers is. -/
theorem canonical_text_iff (v : Value F) {j : Jsonb}
    (hj : jsonbIn (v.json.map Number.token) = some j) {w : Value F}
    (hw : Value.ofText (jsonbOut j) = some w) :
    canonicalText w = canonicalText v ↔ ∀ n ∈ v.json.numbers, n.stored = some n := by
  set g : Number F → Number F := fun n => n.stored.getD n with hg
  have hmap : (v.json.map g).distinctKeys = true := (Json.distinctKeys_map _ _).trans v.distinct
  unfold Value.ofText at hw
  split_ifs at hw with hdepth
  obtain ⟨u, hread, rfl⟩ := Option.map_eq_some_iff.mp hw
  have hread : (reorder v.json).traverse Number.stored = some u := by
    rwa [jsonbOut_of_jsonbIn v hj, Json.traverse_map] at hread
  have hstored : ∀ n ∈ (reorder v.json).numbers, n.stored = some (g n) := by
    intro n hn
    have hsome := Json.traverse_isSome.mp (Option.isSome_of_eq_some hread) n hn
    obtain ⟨m, hm⟩ := Option.isSome_iff_exists.mp hsome
    simp only [hg, hm, Option.getD_some]
  -- the delivered payload has the numbers as they are read, in the order of `JSONB`
  have hu : u = reorder (v.json.map g) := by
    rw [Json.traverse_eq_map hstored] at hread
    rw [← Option.some.inj hread, reorder_map]
  have hlast : lastKeys u = reorder (v.json.map g) := by
    rw [hu, lastKeys_eq_self (distinctKeys_reorder hmap)]
  have hcanon : canonicalText ⟨lastKeys u, lastKeys_distinct u⟩ =
      canonicalText ⟨v.json.map g, hmap⟩ := by
    rw [canonicalText, canonicalText, writeCanonical_eq, writeCanonical_eq]
    simp only [hlast, canon_reorder hmap]
  rw [hcanon, canonicalText_eq_iff, equiv_map_iff v.distinct]
  refine forall₂_congr fun n hn => ?_
  rw [hstored n (mem_numbers_reorder.mpr hn), Option.some.injEq]

end Stored

/-! ## From admission to delivery -/

namespace Database

variable {s : Database}

theorem Reachable.content_admitted (h : s.Reachable) {i : ℕ} {args : AdmitArgs}
    {p : Progress AdmitStage AdmitOutcome} (hi : s.calls[i]? = some (.admitEvent args p))
    {w : Write} (hw : w ∈ s.log) (hcall : w.call = i) {w' : Write} (hw' : w' ∈ s.log)
    (hid : w'.row.eventId = args.eventId) :
    ∃ now, args.checkedRow now = .ok w.row ∧ w'.row.toContent = w.row.toContent := by
  obtain ⟨call, hget, hauth⟩ := h.accounted.authors w hw
  obtain rfl := Option.some.inj (hi.symm.trans (hcall ▸ hget))
  obtain ⟨-, now, hrow⟩ := hauth
  refine ⟨now, hrow, ?_⟩
  obtain ⟨r, hr, hrid⟩ := h.traced.known w' hw'
  have ht := h.traced.trail r hr
  have hid' : w.row.eventId = r.eventId :=
    ((AdmitArgs.checkedRow_key hrow).2.trans hid.symm).trans hrid.symm
  exact (ht.content w' (mem_history.mpr ⟨hw', hrid.symm⟩)).trans
    (ht.content w (mem_history.mpr ⟨hw, hid'⟩)).symm

section Delivered

variable {F : Type} [SerdeJson F] (sha256 : List UInt8 → RequestFingerprint)

/-- **Delivery.** Whatever happens in between, a claimed event has the source and the type it was
admitted with. If every number of its payload is exact, the payload is delivered with the admitted
canonical text, and its fingerprint is the stored one. If one of them is lost, it is not. -/
theorem delivered_as_admitted (h : s.Reachable) {i j : ℕ} {event : Event (Value F)}
    {key : IdempotencyKey} {p : Progress AdmitStage AdmitOutcome} {call : Call}
    {x : ClaimedEvent (Json Token)}
    (hi : s.calls[i]? = some (.admitEvent (.ofEvent event key
      (.compute sha256 event.source event.eventType event.payload)) p))
    (hw : ∃ w ∈ s.log, w.call = i) (hj : s.calls[j]? = some call) (hx : x ∈ call.claimedEvents)
    (hid : x.event.id = event.id) :
    x.event.source = event.source ∧ x.event.eventType = event.eventType ∧
    ∃ payload, Value.ofText x.event.payload = some payload ∧
      ((∀ n ∈ event.payload.json.numbers, n.Exact) →
        canonicalText payload = canonicalText event.payload ∧
        ∀ r ∈ s.events, r.eventId = event.id →
          (RequestFingerprint.compute sha256 x.event.source x.event.eventType payload).asBytes =
            r.requestFingerprint) ∧
      ((∃ n ∈ event.payload.json.numbers, n.Lost) →
        canonicalText payload ≠ canonicalText event.payload) := by
  obtain ⟨w, hlog, hcall⟩ := hw
  obtain ⟨g, hg, hdecode, hreadable⟩ := Call.granted hx
  obtain ⟨hgid, hgsource, hgtype, hgpayload, -, -⟩ := Grant.decode_eq_ok hdecode
  obtain ⟨owner, now', lease, hglog⟩ := h.grant_logged hj hg
  obtain ⟨now, hrow, hcontent⟩ := h.content_admitted hi hlog hcall hglog (hgid.symm.trans hid)
  obtain ⟨-, -, stored, hstored, hw⟩ := AdmitArgs.checkedRow_eq_ok.mp hrow
  have hg' : g.row.toContent = w.row.toContent := hcontent
  obtain ⟨payload, hread⟩ := Option.isSome_iff_exists.mp
    ((ofText_jsonbOut_isSome (F := F) g.row.payload).mpr hreadable)
  rw [← hgpayload] at hread
  rw [hg', hw] at hgsource hgtype hgpayload
  have hsource : x.event.source = event.source := Label.ext hgsource
  have htype : x.event.eventType = event.eventType := Label.ext hgtype
  have htext : canonicalText payload = canonicalText event.payload ↔
      ∀ n ∈ event.payload.json.numbers, n.stored = some n :=
    canonical_text_iff event.payload hstored (hgpayload ▸ hread)
  refine ⟨hsource, htype, payload, hread, fun hexact => ?_, ?_⟩
  · have hsame := htext.mpr fun n hn => Number.stored_of_exact (hexact n hn)
    refine ⟨hsame, fun r hr hrid => ?_⟩
    have hmem : w ∈ s.history r.eventId :=
      mem_history.mpr ⟨hlog, (AdmitArgs.checkedRow_key hrow).2.trans hrid.symm⟩
    rw [← (h.traced.trail r hr).content w hmem, hw, RequestFingerprint.compute, fingerprintInput,
      hsame, hsource, htype]
    rfl
  · rintro ⟨n, hn, hlost⟩ hsame
    exact Number.stored_of_lost hlost (htext.mp hsame n hn)

end Delivered

end Database

/-! ## A sample delivery -/

section Sample

attribute [local instance] SampleFloat.serde

/-- An event with the payload, admitted under the key `k` and claimed once. -/
def sampleEvent (payload : Value SampleFloat) : Event (Value SampleFloat) :=
  ⟨⟨7⟩, .ordersApi, .orderCreated, payload, 0⟩

def sampleArgs (event : Event (Value SampleFloat)) : AdmitArgs :=
  .ofEvent event .short
    (.compute (fun _ => .zero) event.source event.eventType event.payload)

def deliveryRun (event : Event (Value SampleFloat)) : List Act :=
  [.begin (.admitEvent (sampleArgs event)), .advance 0, .advance 0,
    .begin (.claim ⟨⟨1⟩, 1, 10⟩), .advance 1, .advance 1, .advance 1]

/-- The payload `[1e16,-0.0,1e42]` is delivered as an integer, as `0.0` and as the float below
`1e42`. -/
theorem float_delivered_as_integer :
    let payload : Value SampleFloat :=
      ⟨.arr [.num (.float .e16), .num (.float .negZero), .num (.float .e42)], by decide⟩
    canonicalText payload = utf8 "[1e+16,-0.0,1e+42]" ∧
    (Machine.run Database.step (.empty 0) (deliveryRun (sampleEvent payload))).map
        (fun s => s.calls.map fun call => call.claimedEvents.map fun x =>
          (x.event.id, (Value.ofText x.event.payload).map canonicalText)) =
      some [[], [((sampleEvent payload).id,
        some (utf8 "[10000000000000000,0.0,9.999999999999999e+41]"))]] ∧
    utf8 "[10000000000000000,0.0,9.999999999999999e+41]" ≠ utf8 "[1e+16,-0.0,1e+42]" := by
  decide +kernel

def samplePayload : Value SampleFloat :=
  ⟨.arr [.num (.float .half), .num (.posInt 3 (by decide)), .num (.negInt 7 (by decide))],
    by decide⟩

/-- The payload `[0.5,3,-7]` is delivered as it was admitted. -/
theorem delivered_as_admitted_sample :
    ∃ s call x payload,
      Machine.run Database.step (.empty 0) (deliveryRun (sampleEvent samplePayload)) = some s ∧
      s.calls[1]? = some call ∧ x ∈ call.claimedEvents ∧
      Value.ofText x.event.payload = some payload ∧
      canonicalText payload = canonicalText samplePayload := by
  have hrun : (Machine.run Database.step (.empty 0) (deliveryRun (sampleEvent samplePayload))).map
      (fun s => (s.calls[0]?, s.log.map (·.call),
        s.calls.map fun call => call.claimedEvents.map (·.event.id))) =
      some (some (.admitEvent (sampleArgs (sampleEvent samplePayload)) (.committed (.created ⟨7⟩))),
        [0, 1], [[], [⟨7⟩]]) := by
    decide +kernel
  obtain ⟨s, hs, heq⟩ := Option.map_eq_some_iff.mp hrun
  obtain ⟨hi, hlog, hids⟩ := by simpa only [Prod.mk.injEq] using heq
  have hw : (0 : ℕ) ∈ s.log.map (·.call) := by
    rw [hlog]
    decide
  have hcall : (s.calls[1]?).map (fun call => call.claimedEvents.map (·.event.id)) =
      some [⟨7⟩] := by
    rw [← List.getElem?_map, hids]
    rfl
  obtain ⟨call, hj, hcids⟩ := Option.map_eq_some_iff.mp hcall
  obtain ⟨x, hx, hid⟩ := List.mem_map.mp (hcids ▸ List.mem_singleton.mpr rfl :
    (⟨7⟩ : EventId) ∈ call.claimedEvents.map (·.event.id))
  obtain ⟨-, -, payload, hread, hexact, -⟩ := Database.delivered_as_admitted (fun _ => .zero)
    ⟨0, _, hs⟩ hi (List.mem_map.mp hw) hj hx hid
  exact ⟨s, call, x, payload, hs, hj, hx, hread, (hexact (by decide +kernel)).1⟩

end Sample

end PulseStream
