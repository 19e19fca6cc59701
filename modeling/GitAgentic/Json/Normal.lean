import GitAgentic.Json.Value
import GitAgentic.Data.BTreeMap

/-! Values as the program holds them: every object is a sorted map. A document is
brought to that form when it is read, later members replacing earlier ones. -/
namespace GitAgentic

namespace Json

mutual

def toValue : Json → Json
  | .array xs => .array (toValues xs)
  | .object ms => .object (BTreeMap.ofList (toMembers ms)).entries
  | .null => .null
  | .bool b => .bool b
  | .number n => .number n
  | .string s => .string s

def toValues : List Json → List Json
  | [] => []
  | x :: xs => x.toValue :: toValues xs

def toMembers : List (String × Json) → List (String × Json)
  | [] => []
  | (k, x) :: ms => (k, x.toValue) :: toMembers ms

end

theorem toMembers_eq_map (ms : List (String × Json)) :
    toMembers ms = ms.map (fun m => (m.1, m.2.toValue)) := by
  induction ms with
  | nil => rfl
  | cons m ms ih => simp only [toMembers, List.map_cons, ih]

theorem toMembers_eq_self {ms : List (String × Json)} (h : ∀ m ∈ ms, m.2.toValue = m.2) :
    toMembers ms = ms := by
  have same : ms.map (fun m => (m.1, m.2.toValue)) = ms.map id := by
    refine List.map_congr_left ?_
    intro m mem
    exact Prod.ext rfl (h m mem)
  rw [toMembers_eq_map, same, List.map_id]

mutual

theorem toValue_toValue : (j : Json) → j.toValue.toValue = j.toValue
  | .array xs => by
    simp only [toValue, toValues_toValues xs]
  | .object ms => by
    have values : ∀ m ∈ (BTreeMap.ofList (toMembers ms)).entries, m.2.toValue = m.2 :=
      fun m mem => toMembers_normal ms m (BTreeMap.mem_ofList mem)
    simp only [toValue, toMembers_eq_self values, BTreeMap.ofList_entries]
  | .null | .bool _ | .number _ | .string _ => rfl

theorem toValues_toValues : (xs : List Json) → toValues (toValues xs) = toValues xs
  | [] => rfl
  | x :: xs => by simp only [toValues, toValue_toValue x, toValues_toValues xs]

theorem toMembers_normal : (ms : List (String × Json)) → ∀ m ∈ toMembers ms, m.2.toValue = m.2
  | [], _, mem => by cases mem
  | (k, x) :: ms, m, mem => by
    rcases List.mem_cons.mp mem with rfl | mem
    · exact toValue_toValue x
    · exact toMembers_normal ms m mem

end

theorem normal_members {ms : List (String × Json)} (h : (Json.object ms).toValue = .object ms) :
    ∀ m ∈ ms, m.2.toValue = m.2 := by
  intro m mem
  simp only [toValue, Json.object.injEq] at h
  rw [← h] at mem
  exact toMembers_normal ms m (BTreeMap.mem_ofList mem)

theorem normal_object {ms : List (String × Json)} (sorted : SortedKeys ms)
    (h : ∀ m ∈ ms, m.2.toValue = m.2) : (Json.object ms).toValue = .object ms := by
  have same := congrArg BTreeMap.entries (BTreeMap.ofList_entries ⟨ms, sorted⟩)
  simp only [toValue, toMembers_eq_self h]
  exact congrArg Json.object same

theorem normal_get? {j k : Json} {name : String} (h : j.toValue = j) (found : j.get? name = some k) :
    k.toValue = k := by
  cases j with
  | object ms =>
    obtain ⟨m, hm, rfl⟩ := Option.map_eq_some_iff.mp found
    exact normal_members h m (List.mem_of_find?_eq_some hm)
  | _ => cases found

theorem find?_eq_lookupEntry (ms : List (String × Json)) (name : String) :
    (ms.find? (fun m => m.1 == name)).map Prod.snd = lookupEntry name ms := by
  induction ms with
  | nil => rfl
  | cons m ms ih =>
    by_cases named : m.1 = name
    · simp [lookupEntry, named]
    · simp [lookupEntry, named, ih]

/- No name occurs twice in an object, as in every map. -/
mutual

def DistinctKeys : Json → Prop
  | .object map => (map.map Prod.fst).Nodup ∧ DistinctMembers map
  | .array items => DistinctItems items
  | .null | .bool _ | .number _ | .string _ => True

def DistinctItems : List Json → Prop
  | [] => True
  | v :: items => v.DistinctKeys ∧ DistinctItems items

def DistinctMembers : List (String × Json) → Prop
  | [] => True
  | (_, v) :: map => v.DistinctKeys ∧ DistinctMembers map

end

end Json

structure Value where
  json : Json
  normal : json.toValue = json

namespace Value

theorem ext {v w : Value} (h : v.json = w.json) : v = w := by
  cases v
  cases w
  cases h
  rfl

instance : DecidableEq Value := fun v w =>
  if h : v.json = w.json then isTrue (ext h) else isFalse (fun e => h (congrArg json e))

/-- The value a document holds. -/
def ofJson (j : Json) : Value := ⟨j.toValue, j.toValue_toValue⟩

theorem ofJson_json (v : Value) : ofJson v.json = v := ext v.normal

def null : Value := ⟨.null, rfl⟩

def isNull (v : Value) : Bool := v.json.isNull

def get? (v : Value) (name : String) : Option Value := (v.json.get? name).map ofJson

theorem ofJson_get?_of_mem {ms : List (String × Json)} {name : String} {j : Json}
    (mem : (name, j) ∈ ms) (single : ∀ k, (name, k) ∈ ms → k = j) :
    (ofJson (.object ms)).json.get? name = some j.toValue := by
  have brought : (name, j.toValue) ∈ Json.toMembers ms := by
    rw [Json.toMembers_eq_map]
    exact List.mem_map.mpr ⟨_, mem, rfl⟩
  have once : ∀ w, (name, w) ∈ Json.toMembers ms → w = j.toValue := by
    intro w hw
    rw [Json.toMembers_eq_map] at hw
    obtain ⟨⟨_, k⟩, listed, same⟩ := List.mem_map.mp hw
    cases same
    rw [single k listed]
  exact (Json.find?_eq_lookupEntry _ name).trans
    (BTreeMap.get?_foldl_insert_of_mem brought once BTreeMap.empty)

theorem ofJson_get?_of_not_mem {ms : List (String × Json)} {name : String}
    (other : name ∉ ms.map Prod.fst) : (ofJson (.object ms)).json.get? name = none := by
  have absent : name ∉ (Json.toMembers ms).map Prod.fst := by
    rw [Json.toMembers_eq_map, List.map_map]
    exact other
  exact (Json.find?_eq_lookupEntry _ name).trans
    (BTreeMap.get?_foldl_insert_of_not_mem absent BTreeMap.empty)

/-- The two-member object of an operation and a row. -/
def envelope (op : String) (row : Value) : Value where
  json := .object [("op", .string op), ("row", row.json)]
  normal := by
    refine Json.normal_object ?_ ?_
    · have order : "op" < "row" := by decide
      exact List.pairwise_pair.mpr order
    · intro m mem
      rcases List.mem_cons.mp mem with rfl | mem
      · rfl
      · rw [List.mem_singleton.mp mem]
        exact row.normal

end Value

end GitAgentic
