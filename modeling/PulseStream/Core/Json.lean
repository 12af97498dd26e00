import PulseStream.Core.Number

/-!
# JSON trees

`Json N` is a JSON value whose numbers are of type `N`. The same tree serves as `serde_json`'s
value, as the text on the wire and as a stored `JSONB` value; the three differ in what a number
is. An object lists its members in the iteration order of its map.
-/

namespace PulseStream

/-- A JSON value with numbers in `N`. -/
inductive Json (N : Type) where
  | null
  | bool (b : Bool)
  | num (n : N)
  | str (s : String)
  | arr (items : List (Json N))
  | obj (members : List (String × Json N))

namespace Json

variable {L M N : Type}

/-- Induction over a value, with a hypothesis for every item and every member. -/
@[elab_as_elim]
theorem induction {P : Json N → Prop} (null : P .null) (bool : ∀ b, P (.bool b))
    (num : ∀ n, P (.num n)) (str : ∀ s, P (.str s))
    (arr : ∀ items, (∀ v ∈ items, P v) → P (.arr items))
    (obj : ∀ members, (∀ m ∈ members, P m.2) → P (.obj members)) (v : Json N) : P v := by
  refine @Json.rec N P (fun items => ∀ v ∈ items, P v) (fun members => ∀ m ∈ members, P m.2)
    (fun m => P m.2) null bool num str arr obj ?_ ?_ ?_ ?_ ?_ v
  · intro v hv
    cases hv
  · intro head tail hhead htail v hv
    rcases List.mem_cons.mp hv with rfl | hv
    · exact hhead
    · exact htail v hv
  · intro m hm
    cases hm
  · intro head tail hhead htail m hm
    rcases List.mem_cons.mp hm with rfl | hm
    · exact hhead
    · exact htail m hm
  · intro _ _ h
    exact h

/-- The value is `null`. -/
def isNull : Json N → Bool
  | .null => true
  | _ => false

/-! ## Decidable equality -/

section DecEq

variable [DecidableEq N]

mutual

/-- Equality of values is decided constructor by constructor. -/
def decEq : (v w : Json N) → Decidable (v = w)
  | .null, w => match w with
    | .null => isTrue rfl
    | .bool _ | .num _ | .str _ | .arr _ | .obj _ => isFalse (by simp)
  | .bool a, w => match w with
    | .bool b => decidable_of_iff (a = b) (by simp)
    | .null | .num _ | .str _ | .arr _ | .obj _ => isFalse (by simp)
  | .num a, w => match w with
    | .num b => decidable_of_iff (a = b) (by simp)
    | .null | .bool _ | .str _ | .arr _ | .obj _ => isFalse (by simp)
  | .str a, w => match w with
    | .str b => decidable_of_iff (a = b) (by simp)
    | .null | .bool _ | .num _ | .arr _ | .obj _ => isFalse (by simp)
  | .arr xs, w => match w with
    | .arr ys => @decidable_of_iff _ (xs = ys) (by simp) (decEqItems xs ys)
    | .null | .bool _ | .num _ | .str _ | .obj _ => isFalse (by simp)
  | .obj xs, w => match w with
    | .obj ys => @decidable_of_iff _ (xs = ys) (by simp) (decEqMembers xs ys)
    | .null | .bool _ | .num _ | .str _ | .arr _ => isFalse (by simp)

def decEqItems : (xs ys : List (Json N)) → Decidable (xs = ys)
  | [], [] => isTrue rfl
  | [], _ :: _ => isFalse (by simp)
  | _ :: _, [] => isFalse (by simp)
  | x :: xs, y :: ys =>
    match decEq x y, decEqItems xs ys with
    | isTrue hx, isTrue hxs => isTrue (by rw [hx, hxs])
    | isFalse hx, _ => isFalse (fun h => hx (List.cons.inj h).1)
    | _, isFalse hxs => isFalse (fun h => hxs (List.cons.inj h).2)

def decEqMembers : (xs ys : List (String × Json N)) → Decidable (xs = ys)
  | [], [] => isTrue rfl
  | [], _ :: _ => isFalse (by simp)
  | _ :: _, [] => isFalse (by simp)
  | (k, x) :: xs, (l, y) :: ys =>
    match decEq x y, decEqMembers xs ys with
    | isTrue hx, isTrue hxs => decidable_of_iff (k = l) (by simp [hx, hxs])
    | isFalse hx, _ => isFalse (fun h => hx (Prod.mk.inj (List.cons.inj h).1).2)
    | _, isFalse hxs => isFalse (fun h => hxs (List.cons.inj h).2)

end

instance : DecidableEq (Json N) := decEq

end DecEq

/-! ## Conditions on every part of a value -/

section All

variable (num : N → Bool) (str : String → Bool) (keys : List String → Bool)

mutual

/-- Every number passes `num`, every string passes `str` and the key list of every object passes
`keys`, at any depth. -/
def all : Json N → Bool
  | .null => true
  | .bool _ => true
  | .num n => num n
  | .str s => str s
  | .arr items => allItems items
  | .obj members => keys (members.map Prod.fst) && allMembers members

def allItems : List (Json N) → Bool
  | [] => true
  | v :: vs => all v && allItems vs

def allMembers : List (String × Json N) → Bool
  | [] => true
  | m :: ms => all m.2 && allMembers ms

end

theorem allItems_eq (items : List (Json N)) :
    allItems num str keys items = items.all (all num str keys) := by
  induction items with
  | nil => simp [allItems]
  | cons v vs ih => simp [allItems, ih]

theorem allMembers_eq (members : List (String × Json N)) :
    allMembers num str keys members = members.all fun m => all num str keys m.2 := by
  induction members with
  | nil => simp [allMembers]
  | cons m ms ih => simp [allMembers, ih]

theorem all_arr {items : List (Json N)} :
    all num str keys (.arr items) = true ↔ ∀ v ∈ items, all num str keys v = true := by
  simp [all, allItems_eq]

theorem all_obj {members : List (String × Json N)} :
    all num str keys (.obj members) = true ↔
      keys (members.map Prod.fst) = true ∧ ∀ m ∈ members, all num str keys m.2 = true := by
  simp [all, allMembers_eq]

end All

/-- No object has a key twice, as in every `serde_json::Map`. -/
def distinctKeys : Json N → Bool := all (fun _ => true) (fun _ => true) (fun ks => decide ks.Nodup)

theorem distinctKeys_arr {items : List (Json N)} :
    distinctKeys (.arr items) = true ↔ ∀ v ∈ items, distinctKeys v = true := all_arr _ _ _

theorem distinctKeys_obj {members : List (String × Json N)} :
    distinctKeys (.obj members) = true ↔
      (members.map Prod.fst).Nodup ∧ ∀ m ∈ members, distinctKeys m.2 = true := by
  rw [distinctKeys, all_obj, decide_eq_true_iff]

/-! ## Changing the numbers -/

mutual

/-- The value with every number replaced. -/
def map (f : M → N) : Json M → Json N
  | .null => .null
  | .bool b => .bool b
  | .num n => .num (f n)
  | .str s => .str s
  | .arr items => .arr (mapItems f items)
  | .obj members => .obj (mapMembers f members)

def mapItems (f : M → N) : List (Json M) → List (Json N)
  | [] => []
  | v :: vs => map f v :: mapItems f vs

def mapMembers (f : M → N) : List (String × Json M) → List (String × Json N)
  | [] => []
  | (k, v) :: ms => (k, map f v) :: mapMembers f ms

end

theorem mapItems_eq (f : M → N) (items : List (Json M)) : mapItems f items = items.map (map f) := by
  induction items with
  | nil => simp [mapItems]
  | cons v vs ih => simp [mapItems, ih]

theorem mapMembers_eq (f : M → N) (members : List (String × Json M)) :
    mapMembers f members = members.map fun m => (m.1, map f m.2) := by
  induction members with
  | nil => simp [mapMembers]
  | cons m ms ih => simp [mapMembers, ih]

@[simp] theorem map_arr (f : M → N) (items : List (Json M)) :
    map f (.arr items) = .arr (items.map (map f)) := by
  rw [map, mapItems_eq]

@[simp] theorem map_obj (f : M → N) (members : List (String × Json M)) :
    map f (.obj members) = .obj (members.map fun m => (m.1, map f m.2)) := by
  rw [map, mapMembers_eq]

theorem map_map (f : L → M) (g : M → N) (v : Json L) : (v.map f).map g = v.map (g ∘ f) := by
  induction v using induction with
  | null => rfl
  | bool b => rfl
  | num n => rfl
  | str s => rfl
  | arr items ih =>
    simp only [map_arr, List.map_map, Json.arr.injEq]
    exact List.map_congr_left ih
  | obj members ih =>
    simp only [map_obj, List.map_map, Json.obj.injEq]
    refine List.map_congr_left fun m hm => ?_
    simp only [Function.comp_apply, ih m hm]

theorem isNull_map (f : M → N) (v : Json M) : (v.map f).isNull = v.isNull := by
  cases v <;> rfl

theorem all_map (str : String → Bool) (keys : List String → Bool) (f : M → N) (v : Json M) :
    all (fun _ => true) str keys (v.map f) = all (fun _ => true) str keys v := by
  rw [Bool.eq_iff_iff]
  induction v using induction with
  | null => rfl
  | bool b => rfl
  | num n => rfl
  | str s => rfl
  | arr items ih =>
    rw [map_arr, all_arr, all_arr, List.forall_mem_map]
    exact forall₂_congr fun v hv => ih v hv
  | obj members ih =>
    rw [map_obj, all_obj, all_obj, List.forall_mem_map, List.map_map]
    exact and_congr Iff.rfl (forall₂_congr fun m hm => ih m hm)

@[simp] theorem distinctKeys_map (f : M → N) (v : Json M) :
    distinctKeys (v.map f) = distinctKeys v := all_map _ _ f v

/-! ## The numbers of a value -/

mutual

/-- Every number in the value, at any depth. -/
def numbers : Json N → List N
  | .null => []
  | .bool _ => []
  | .num n => [n]
  | .str _ => []
  | .arr items => numbersItems items
  | .obj members => numbersMembers members

def numbersItems : List (Json N) → List N
  | [] => []
  | v :: vs => numbers v ++ numbersItems vs

def numbersMembers : List (String × Json N) → List N
  | [] => []
  | m :: ms => numbers m.2 ++ numbersMembers ms

end

theorem numbers_arr (items : List (Json N)) : numbers (.arr items) = items.flatMap numbers := by
  have h : numbersItems items = items.flatMap numbers := by
    induction items with
    | nil => simp [numbersItems]
    | cons v vs ih => simp [numbersItems, ih]
  rw [numbers, h]

theorem numbers_obj (members : List (String × Json N)) :
    numbers (.obj members) = members.flatMap fun m => numbers m.2 := by
  have h : numbersMembers members = members.flatMap fun m => numbers m.2 := by
    induction members with
    | nil => simp [numbersMembers]
    | cons m ms ih => simp [numbersMembers, ih]
  rw [numbers, h]

theorem numbers_map (f : M → N) (v : Json M) : (v.map f).numbers = v.numbers.map f := by
  induction v using induction with
  | null => rfl
  | bool b => rfl
  | num n => rfl
  | str s => rfl
  | arr items ih =>
    rw [map_arr, numbers_arr, numbers_arr, List.flatMap_map, List.map_flatMap]
    exact List.flatMap_congr ih
  | obj members ih =>
    rw [map_obj, numbers_obj, numbers_obj, List.flatMap_map, List.map_flatMap]
    exact List.flatMap_congr ih

/-! ## Nesting -/

mutual

/-- How deep arrays and objects are nested. -/
def depth : Json N → ℕ
  | .null => 0
  | .bool _ => 0
  | .num _ => 0
  | .str _ => 0
  | .arr items => depthItems items + 1
  | .obj members => depthMembers members + 1

def depthItems : List (Json N) → ℕ
  | [] => 0
  | v :: vs => max (depth v) (depthItems vs)

def depthMembers : List (String × Json N) → ℕ
  | [] => 0
  | m :: ms => max (depth m.2) (depthMembers ms)

end

theorem depth_arr (items : List (Json N)) :
    depth (.arr items) = (items.map depth).foldr max 0 + 1 := by
  have h : depthItems items = (items.map depth).foldr max 0 := by
    induction items with
    | nil => simp [depthItems]
    | cons v vs ih => simp [depthItems, ih]
  rw [depth, h]

theorem depth_obj (members : List (String × Json N)) :
    depth (.obj members) = (members.map fun m => depth m.2).foldr max 0 + 1 := by
  have h : depthMembers members = (members.map fun m => depth m.2).foldr max 0 := by
    induction members with
    | nil => simp [depthMembers]
    | cons m ms ih => simp [depthMembers, ih]
  rw [depth, h]

@[simp] theorem depth_map (f : M → N) (v : Json M) : (v.map f).depth = v.depth := by
  induction v using induction with
  | null => rfl
  | bool b => rfl
  | num n => rfl
  | str s => rfl
  | arr items ih =>
    rw [map_arr, depth_arr, depth_arr, List.map_map]
    congr 2
    exact List.map_congr_left ih
  | obj members ih =>
    rw [map_obj, depth_obj, depth_obj, List.map_map]
    congr 2
    exact List.map_congr_left ih

/-! ## Reading the numbers -/

mutual

/-- Every number is read by `f`; `none` as soon as one cannot be read. -/
def traverse (f : M → Option N) : Json M → Option (Json N)
  | .null => some .null
  | .bool b => some (.bool b)
  | .num n => (f n).map .num
  | .str s => some (.str s)
  | .arr items => (traverseItems f items).map .arr
  | .obj members => (traverseMembers f members).map .obj

def traverseItems (f : M → Option N) : List (Json M) → Option (List (Json N))
  | [] => some []
  | v :: vs => do
    let w ← traverse f v
    let ws ← traverseItems f vs
    return w :: ws

def traverseMembers (f : M → Option N) :
    List (String × Json M) → Option (List (String × Json N))
  | [] => some []
  | (k, v) :: ms => do
    let w ← traverse f v
    let ws ← traverseMembers f ms
    return (k, w) :: ws

end

theorem traverse_map (f : L → M) (g : M → Option N) (v : Json L) :
    (v.map f).traverse g = v.traverse (g ∘ f) := by
  induction v using induction with
  | null => rfl
  | bool b => rfl
  | num n => rfl
  | str s => rfl
  | arr items ih =>
    have h : traverseItems g (items.map (map f)) = traverseItems (g ∘ f) items := by
      induction items with
      | nil => rfl
      | cons v vs ihs =>
        obtain ⟨hv, hvs⟩ := List.forall_mem_cons.mp ih
        rw [List.map_cons, traverseItems, traverseItems, hv, ihs hvs]
    rw [map_arr, traverse, traverse, h]
  | obj members ih =>
    have h : traverseMembers g (members.map fun m => (m.1, map f m.2)) =
        traverseMembers (g ∘ f) members := by
      induction members with
      | nil => rfl
      | cons m ms ihs =>
        obtain ⟨hm, hms⟩ := List.forall_mem_cons.mp ih
        rw [List.map_cons, traverseMembers, traverseMembers, hm, ihs hms]
    rw [map_obj, traverse, traverse, h]

theorem traverse_eq_map {f : M → Option N} {g : M → N} {v : Json M}
    (h : ∀ n ∈ v.numbers, f n = some (g n)) : v.traverse f = some (v.map g) := by
  induction v using induction with
  | null => rfl
  | bool b => rfl
  | num n => rw [traverse, h n (by simp [numbers]), map, Option.map_some]
  | str s => rfl
  | arr items ih =>
    simp only [numbers_arr, List.mem_flatMap, forall_exists_index, and_imp] at h
    have hitems : traverseItems f items = some (items.map (map g)) := by
      induction items with
      | nil => rfl
      | cons v vs ihs =>
        obtain ⟨hv, hvs⟩ := List.forall_mem_cons.mp ih
        rw [traverseItems, hv fun n hn => h n v List.mem_cons_self hn,
          ihs hvs fun n w hw hn => h n w (List.mem_cons_of_mem _ hw) hn]
        rfl
    rw [traverse, hitems, map_arr, Option.map_some]
  | obj members ih =>
    simp only [numbers_obj, List.mem_flatMap, forall_exists_index, and_imp] at h
    have hmembers : traverseMembers f members = some (members.map fun m => (m.1, map g m.2)) := by
      induction members with
      | nil => rfl
      | cons m ms ihs =>
        obtain ⟨hm, hms⟩ := List.forall_mem_cons.mp ih
        rw [traverseMembers, hm fun n hn => h n m List.mem_cons_self hn,
          ihs hms fun n w hw hn => h n w (List.mem_cons_of_mem _ hw) hn]
        rfl
    rw [traverse, hmembers, map_obj, Option.map_some]

theorem traverseItems_isSome (f : M → Option N) (vs : List (Json M)) :
    (traverseItems f vs).isSome ↔ ∀ v ∈ vs, (v.traverse f).isSome := by
  induction vs with
  | nil => simp [traverseItems]
  | cons v vs ih =>
    rw [List.forall_mem_cons, ← ih, traverseItems]
    cases v.traverse f <;> cases traverseItems f vs <;> simp

theorem traverseMembers_isSome (f : M → Option N) (ms : List (String × Json M)) :
    (traverseMembers f ms).isSome ↔ ∀ m ∈ ms, (m.2.traverse f).isSome := by
  induction ms with
  | nil => simp [traverseMembers]
  | cons m ms ih =>
    rw [List.forall_mem_cons, ← ih, traverseMembers]
    cases m.2.traverse f <;> cases traverseMembers f ms <;> simp

theorem traverse_isSome {f : M → Option N} {v : Json M} :
    (v.traverse f).isSome ↔ ∀ n ∈ v.numbers, (f n).isSome := by
  induction v using induction with
  | null => simp [traverse, numbers]
  | bool b => simp [traverse, numbers]
  | num n => simp [traverse, numbers]
  | str s => simp [traverse, numbers]
  | arr items ih =>
    rw [traverse, Option.isSome_map, traverseItems_isSome, numbers_arr, List.forall_mem_flatMap]
    exact forall₂_congr ih
  | obj members ih =>
    rw [traverse, Option.isSome_map, traverseMembers_isSome, numbers_obj, List.forall_mem_flatMap]
    exact forall₂_congr ih

end Json

/-! ## `serde_json::Value` -/

/-- `serde_json::Value`: no object has a key twice. -/
structure Value (F : Type) where
  json : Json (Number F)
  distinct : json.distinctKeys = true

/-- `Value::is_null`. -/
def Value.isNull {F : Type} (v : Value F) : Bool := v.json.isNull

end PulseStream
