import GitAgentic.Core.Platform
import GitAgentic.Json.Normal

/-! The canonical manifest of a tool server: its keys are sorted at every depth, and the
compact text is what is hashed. Two manifests are one exactly when they differ in the
order of object members only. -/
namespace GitAgentic

namespace Json

mutual

def sortKeys : Json → Json
  | .object map =>
    let sorted := BTreeMap.ofList (sortMembers map)
    .object sorted.entries
  | .array items => .array (sortItems items)
  | .null => .null
  | .bool b => .bool b
  | .number n => .number n
  | .string s => .string s

def sortItems : List Json → List Json
  | [] => []
  | v :: items => v.sortKeys :: sortItems items

def sortMembers : List (String × Json) → List (String × Json)
  | [] => []
  | (k, v) :: map => (k, v.sortKeys) :: sortMembers map

end

/- Equal up to the order of object members, at every depth: the members of one object
are those of the other after these have been put in another order. -/
mutual

inductive SameUpToOrder : Json → Json → Prop
  | null : SameUpToOrder .null .null
  | bool (b : Bool) : SameUpToOrder (.bool b) (.bool b)
  | number (n : Number) : SameUpToOrder (.number n) (.number n)
  | string (s : String) : SameUpToOrder (.string s) (.string s)
  | array {items others : List Json} (same : SameItems items others) :
      SameUpToOrder (.array items) (.array others)
  | object {map reordered other : List (String × Json)} (same : SameMembers map reordered)
      (order : reordered.Perm other) : SameUpToOrder (.object map) (.object other)

inductive SameItems : List Json → List Json → Prop
  | nil : SameItems [] []
  | cons {v w : Json} {items others : List Json} (head : SameUpToOrder v w)
      (tail : SameItems items others) : SameItems (v :: items) (w :: others)

inductive SameMembers : List (String × Json) → List (String × Json) → Prop
  | nil : SameMembers [] []
  | cons (k : String) {v w : Json} {map other : List (String × Json)} (head : SameUpToOrder v w)
      (tail : SameMembers map other) : SameMembers ((k, v) :: map) ((k, w) :: other)

end

theorem distinctMembers_iff (map : List (String × Json)) :
    DistinctMembers map ↔ ∀ m ∈ map, m.2.DistinctKeys := by
  induction map with
  | nil => exact iff_of_true trivial (fun m mem => by cases mem)
  | cons m map ih => rw [DistinctMembers, ih, List.forall_mem_cons]

theorem distinctMembers_of_perm {map other : List (String × Json)} (order : map.Perm other)
    (distinct : DistinctMembers other) : DistinctMembers map := by
  rw [distinctMembers_iff] at distinct ⊢
  exact fun m mem => distinct m (order.mem_iff.mp mem)

theorem sortMembers_eq_map (map : List (String × Json)) :
    sortMembers map = map.map (fun m => (m.1, m.2.sortKeys)) := by
  induction map with
  | nil => rfl
  | cons m map ih => rw [sortMembers, ih, List.map_cons]

theorem sortMembers_keys (map : List (String × Json)) :
    (sortMembers map).map Prod.fst = map.map Prod.fst := by
  rw [sortMembers_eq_map, List.map_map]
  rfl

mutual

theorem sortKeys_eq_toValue : (v : Json) → v.sortKeys = v.toValue
  | .object map => by
    rw [sortKeys, toValue, sortMembers_eq_toMembers map]
  | .array items => by
    rw [sortKeys, toValue, sortItems_eq_toValues items]
  | .null | .bool _ | .number _ | .string _ => rfl

theorem sortItems_eq_toValues : (items : List Json) → sortItems items = toValues items
  | [] => rfl
  | v :: items => by
    rw [sortItems, toValues, sortKeys_eq_toValue v, sortItems_eq_toValues items]

theorem sortMembers_eq_toMembers : (map : List (String × Json)) → sortMembers map = toMembers map
  | [] => rfl
  | (k, v) :: map => by
    rw [sortMembers, toMembers, sortKeys_eq_toValue v, sortMembers_eq_toMembers map]

end

theorem sortKeys_object_eq_iff {map other : List (String × Json)} (single : (map.map Prod.fst).Nodup)
    (single' : (other.map Prod.fst).Nodup) :
    (Json.object map).sortKeys = (Json.object other).sortKeys ↔
      (sortMembers map).Perm (sortMembers other) := by
  rw [← sortMembers_keys] at single single'
  rw [← BTreeMap.ofList_eq_iff single single', sortKeys, sortKeys, Json.object.injEq]
  exact ⟨BTreeMap.ext, congrArg BTreeMap.entries⟩

theorem SameMembers.keys_eq : {map other : List (String × Json)} → SameMembers map other →
    map.map Prod.fst = other.map Prod.fst
  | _, _, .nil => rfl
  | _, _, .cons k _ tail => congrArg (List.cons k) tail.keys_eq

mutual

theorem SameUpToOrder.sortKeys_eq : {v w : Json} → SameUpToOrder v w → v.DistinctKeys →
    v.sortKeys = w.sortKeys
  | _, _, .null, _ | _, _, .bool _, _ | _, _, .number _, _ | _, _, .string _, _ => rfl
  | _, _, .array same, distinct => by
    rw [DistinctKeys] at distinct
    rw [sortKeys, sortKeys, same.sortItems_eq distinct]
  | _, _, @SameUpToOrder.object map reordered other same order, distinct => by
    rw [DistinctKeys] at distinct
    have keys : (map.map Prod.fst).Perm (other.map Prod.fst) := by
      rw [same.keys_eq]
      exact order.map Prod.fst
    refine (sortKeys_object_eq_iff distinct.1 (keys.nodup_iff.mp distinct.1)).mpr ?_
    rw [same.sortMembers_eq distinct.2, sortMembers_eq_map, sortMembers_eq_map]
    exact order.map _

theorem SameItems.sortItems_eq : {items others : List Json} → SameItems items others →
    DistinctItems items → sortItems items = sortItems others
  | _, _, .nil, _ => rfl
  | _, _, .cons head tail, distinct => by
    rw [DistinctItems] at distinct
    rw [sortItems, sortItems, head.sortKeys_eq distinct.1, tail.sortItems_eq distinct.2]

theorem SameMembers.sortMembers_eq : {map other : List (String × Json)} → SameMembers map other →
    DistinctMembers map → sortMembers map = sortMembers other
  | _, _, .nil, _ => rfl
  | _, _, .cons k head tail, distinct => by
    rw [DistinctMembers] at distinct
    rw [sortMembers, sortMembers, head.sortKeys_eq distinct.1, tail.sortMembers_eq distinct.2]

end

mutual

theorem sameUpToOrder_of_sortKeys_eq : (v w : Json) → v.DistinctKeys → w.DistinctKeys →
    v.sortKeys = w.sortKeys → SameUpToOrder v w
  | .object map, .object other, distinct, distinct', same => by
    rw [DistinctKeys] at distinct distinct'
    have perm := (sortKeys_object_eq_iff distinct.1 distinct'.1).mp same
    rw [sortMembers_eq_map other] at perm
    -- the other object's members in the order of this one's
    obtain ⟨reordered, sorted, order⟩ : ∃ reordered : List (String × Json),
        sortMembers map = reordered.map (fun m => (m.1, m.2.sortKeys)) ∧ reordered.Perm other := by
      have comp := List.eq_map_comp_perm (fun m : String × Json => (m.1, m.2.sortKeys))
      exact (congrFun (congrFun comp _) _).mpr perm
    rw [← sortMembers_eq_map] at sorted
    exact .object (sameMembers_of_sortMembers_eq map reordered distinct.2
      (distinctMembers_of_perm order distinct'.2) sorted) order
  | .array items, .array others, distinct, distinct', same => by
    rw [DistinctKeys] at distinct distinct'
    rw [sortKeys, sortKeys, Json.array.injEq] at same
    exact .array (sameItems_of_sortItems_eq items others distinct distinct' same)
  | .null, w, _, _, same => by
    cases w with
    | null => exact .null
    | _ => cases same
  | .bool b, w, _, _, same => by
    cases w with
    | bool c => cases same; exact .bool b
    | _ => cases same
  | .number n, w, _, _, same => by
    cases w with
    | number m => cases same; exact .number n
    | _ => cases same
  | .string s, w, _, _, same => by
    cases w with
    | string t => cases same; exact .string s
    | _ => cases same
  | .object _, .null, _, _, same | .object _, .bool _, _, _, same | .object _, .number _, _, _, same
  | .object _, .string _, _, _, same | .object _, .array _, _, _, same
  | .array _, .null, _, _, same | .array _, .bool _, _, _, same | .array _, .number _, _, _, same
  | .array _, .string _, _, _, same | .array _, .object _, _, _, same => by cases same

theorem sameItems_of_sortItems_eq : (items others : List Json) → DistinctItems items →
    DistinctItems others → sortItems items = sortItems others → SameItems items others
  | [], [], _, _, _ => .nil
  | v :: items, w :: others, distinct, distinct', same => by
    rw [DistinctItems] at distinct distinct'
    rw [sortItems, sortItems, List.cons.injEq] at same
    exact .cons (sameUpToOrder_of_sortKeys_eq v w distinct.1 distinct'.1 same.1)
      (sameItems_of_sortItems_eq items others distinct.2 distinct'.2 same.2)
  | [], _ :: _, _, _, same | _ :: _, [], _, _, same => by cases same

theorem sameMembers_of_sortMembers_eq : (map other : List (String × Json)) → DistinctMembers map →
    DistinctMembers other → sortMembers map = sortMembers other → SameMembers map other
  | [], [], _, _, _ => .nil
  | (k, v) :: map, (l, w) :: other, distinct, distinct', same => by
    rw [DistinctMembers] at distinct distinct'
    rw [sortMembers, sortMembers, List.cons.injEq, Prod.mk.injEq] at same
    obtain ⟨⟨rfl, head⟩, tail⟩ := same
    exact .cons k (sameUpToOrder_of_sortKeys_eq v w distinct.1 distinct'.1 head)
      (sameMembers_of_sortMembers_eq map other distinct.2 distinct'.2 tail)
  | [], _ :: _, _, _, same | _ :: _, [], _, _, same => by cases same

end

end Json

/-- A value whose objects are maps, with their members in any order. -/
structure MapValue where
  json : Json
  distinct : json.DistinctKeys

theorem MapValue.sameUpToOrder_iff (v w : MapValue) :
    v.json.SameUpToOrder w.json ↔ v.json.sortKeys = w.json.sortKeys :=
  ⟨fun same => same.sortKeys_eq v.distinct,
    Json.sameUpToOrder_of_sortKeys_eq v.json w.json v.distinct w.distinct⟩

theorem MapValue.sameUpToOrder_equivalence :
    Equivalence (fun v w : MapValue => v.json.SameUpToOrder w.json) where
  refl v := (v.sameUpToOrder_iff v).mpr rfl
  symm same := (sameUpToOrder_iff _ _).mpr ((sameUpToOrder_iff _ _).mp same).symm
  trans left right := (sameUpToOrder_iff _ _).mpr
    (((sameUpToOrder_iff _ _).mp left).trans ((sameUpToOrder_iff _ _).mp right))

variable {Hash : Type} (P : Platform Hash)

/-- The manifest that is hashed and kept. -/
def canonicalize (value : Json) : Bytes := P.toVec value.sortKeys

/-- `serde_json::from_slice` into a value. -/
def parseValue (bytes : Bytes) : Option Value := (P.fromSlice bytes).map Value.ofJson

theorem parseValue_canonicalize (v : Json) :
    parseValue P (canonicalize P v) = some (Value.ofJson v.sortKeys) := by
  rw [parseValue, canonicalize, P.fromSlice_toVec, Option.map_some]

theorem canonicalize_ofJson_sortKeys (v : Json) :
    canonicalize P (Value.ofJson v.sortKeys).json = canonicalize P v := by
  rw [canonicalize, canonicalize, Value.ofJson, Json.sortKeys_eq_toValue, Json.sortKeys_eq_toValue,
    Json.toValue_toValue, Json.toValue_toValue]

/-- The manifest bytes tell values apart up to the order of object members, and a manifest
that is read and made again is the same. -/
theorem canonicalize_canonical :
    (∀ v w : MapValue, canonicalize P v.json = canonicalize P w.json ↔
      v.json.SameUpToOrder w.json) ∧
    (∀ v : MapValue, ∃ w, parseValue P (canonicalize P v.json) = some w ∧
      canonicalize P w.json = canonicalize P v.json) := by
  constructor
  · intro v w
    rw [canonicalize, canonicalize, P.toVec_injective.eq_iff, v.sameUpToOrder_iff w]
  · exact fun v => ⟨_, parseValue_canonicalize P v.json, canonicalize_ofJson_sortKeys P v.json⟩

end GitAgentic
