import GitAgentic.Core.ObjectCodec
import GitAgentic.Data.Arrange
import GitAgentic.Json.Normal

/-! Segments of a memory table, and the manifest that lists them in key order.
Both are addressed by the hash of their canonical JSON. -/
namespace GitAgentic

/-- The numbers of a vector are kept as they stand in the document. -/
structure Embedding where
  rowIdx : UInt32
  vector : List Number
  deriving DecidableEq

structure Segment where
  table : String
  schemaVersion : String
  pkLo : Value
  pkHi : Value
  rowCount : UInt64
  rows : List Value
  embeddings : List Embedding
  metadata : BTreeMap String Value
  deriving DecidableEq

structure SegmentRef (Hash : Type) where
  table : String
  pkLo : Value
  pkHi : Value
  segment : Hash
  rowCount : UInt64
  deriving DecidableEq

/-- Entries are kept sorted by table and lower key. -/
structure SegmentManifest (Hash : Type) where
  schemaVersion : String
  entries : List (SegmentRef Hash)
  deriving DecidableEq

/-- A snapshot: its manifest, and the schema version it was taken at. -/
structure SnapshotHandle (Hash : Type) where
  manifest : SegmentManifest Hash
  schemaVersion : String
  deriving DecidableEq

inductive PkKey where
  | int (i : Int)
  | float (bits : UInt64)
  | text (s : String)
  deriving DecidableEq, Repr

namespace PkKey

def rank : PkKey → Int ⊕ₗ Nat ⊕ₗ String
  | .int i => Sum.inlₗ i
  | .float bits => Sum.inrₗ (Sum.inlₗ bits.toNat)
  | .text s => Sum.inrₗ (Sum.inrₗ s)

theorem rank_injective : Function.Injective rank := by
  intro a b h
  cases a with
  | int i => cases b with
    | int j => exact congrArg int (Sum.inl.inj h)
    | float _ | text _ => cases h
  | float x => cases b with
    | float y => exact congrArg float (UInt64.toNat_inj.mp (Sum.inl.inj (Sum.inr.inj h)))
    | int _ | text _ => cases h
  | text s => cases b with
    | text t => exact congrArg text (Sum.inr.inj (Sum.inr.inj h))
    | int _ | float _ => cases h

/-- Integers before floats before texts. -/
instance : LinearOrder PkKey := LinearOrder.lift' rank rank_injective

end PkKey

/- Serialised forms. -/

def u64Json (n : UInt64) : Json := .number (.posInt n)

def readU64 : Json → Option UInt64
  | .number (.posInt n) => some n
  | _ => none

def readNumber : Json → Option Number
  | .number n => some n
  | _ => none

def readValue (j : Json) : Option Value := some (.ofJson j)

def readMap : Json → Option (BTreeMap String Value)
  | .object ms => some (BTreeMap.ofList (ms.map (fun m => (m.1, Value.ofJson m.2))))
  | _ => none

@[simp] theorem readU64_u64Json (n : UInt64) : readU64 (u64Json n) = some n := rfl

@[simp] theorem readValue_json (v : Value) : readValue v.json = some v :=
  congrArg some v.ofJson_json

@[simp] theorem readList_values (vs : List Value) :
    readList readValue (.array (vs.map Value.json)) = some vs :=
  readList_map readValue Value.json readValue_json vs

@[simp] theorem readMap_object (m : BTreeMap String Value) :
    readMap (.object (m.entries.map (fun e => (e.1, e.2.json)))) = some m := by
  have back : (m.entries.map (fun e => (e.1, e.2.json))).map
      (fun e => (e.1, Value.ofJson e.2)) = m.entries.map id := by
    rw [List.map_map]
    exact List.map_congr_left (fun e _ => Prod.ext rfl e.2.ofJson_json)
  rw [List.map_id] at back
  simp only [readMap, back, BTreeMap.ofList_entries]

def Embedding.toJson (e : Embedding) : Json :=
  .object [("row_idx", u32Json e.rowIdx), ("vector", .array (e.vector.map Json.number))]

def Embedding.fromJson : Json → Option Embedding
  | .object ms => do
    let rowIdx ← required readU32 ms "row_idx"
    let vector ← required (readList readNumber) ms "vector"
    some { rowIdx, vector }
  | _ => none

theorem Embedding.fromJson_toJson (e : Embedding) : Embedding.fromJson e.toJson = some e := by
  have vector : readList readNumber (.array (e.vector.map Json.number)) = some e.vector :=
    readList_map readNumber Json.number (fun _ => rfl) e.vector
  simp [Embedding.fromJson, Embedding.toJson, required, field, readU32_u32Json, vector]

def Segment.toJson (s : Segment) : Json :=
  .object
    [("table", .string s.table),
     ("schema_version", .string s.schemaVersion),
     ("pk_lo", s.pkLo.json),
     ("pk_hi", s.pkHi.json),
     ("row_count", u64Json s.rowCount),
     ("rows", .array (s.rows.map Value.json)),
     ("embeddings", .array (s.embeddings.map Embedding.toJson)),
     ("metadata", .object (s.metadata.entries.map (fun e => (e.1, e.2.json))))]

def Segment.fromJson : Json → Option Segment
  | .object ms => do
    let table ← required readStr ms "table"
    let schemaVersion ← required readStr ms "schema_version"
    let pkLo ← required readValue ms "pk_lo"
    let pkHi ← required readValue ms "pk_hi"
    let rowCount ← required readU64 ms "row_count"
    let rows ← required (readList readValue) ms "rows"
    let embeddings ← defaulted [] (readList Embedding.fromJson) ms "embeddings"
    let metadata ← defaulted BTreeMap.empty readMap ms "metadata"
    some { table, schemaVersion, pkLo, pkHi, rowCount, rows, embeddings, metadata }
  | _ => none

theorem Segment.fromJson_toJson (s : Segment) : Segment.fromJson s.toJson = some s := by
  have embeddings := readList_map _ _ Embedding.fromJson_toJson s.embeddings
  simp [Segment.fromJson, Segment.toJson, required, defaulted, field, embeddings]

section

variable {Hash : Type} (P : Platform Hash)

def Segment.toCanonicalBytes (s : Segment) : Bytes := P.toVec s.toJson

def Segment.hash (s : Segment) : Hash := P.of (s.toCanonicalBytes P)

def Segment.canonicalSize (s : Segment) : Nat := (s.toCanonicalBytes P).length

def Segment.fromSlice (bytes : Bytes) : Option Segment := (P.fromSlice bytes).bind Segment.fromJson

theorem Segment.fromSlice_toCanonicalBytes (s : Segment) :
    Segment.fromSlice P (s.toCanonicalBytes P) = some s := by
  rw [Segment.fromSlice, Segment.toCanonicalBytes, P.fromSlice_toVec, Option.bind_some,
    s.fromJson_toJson]

def SegmentRef.toJson (r : SegmentRef Hash) : Json :=
  .object
    [("table", .string r.table),
     ("pk_lo", r.pkLo.json),
     ("pk_hi", r.pkHi.json),
     ("segment", hashJson P r.segment),
     ("row_count", u64Json r.rowCount)]

def SegmentRef.fromJson : Json → Option (SegmentRef Hash)
  | .object ms => do
    let table ← required readStr ms "table"
    let pkLo ← required readValue ms "pk_lo"
    let pkHi ← required readValue ms "pk_hi"
    let segment ← required (readHash P) ms "segment"
    let rowCount ← required readU64 ms "row_count"
    some { table, pkLo, pkHi, segment, rowCount }
  | _ => none

theorem SegmentRef.fromJson_toJson (r : SegmentRef Hash) :
    SegmentRef.fromJson P (r.toJson P) = some r := by
  simp [SegmentRef.fromJson, SegmentRef.toJson, required, field]

def pkSortKey (v : Value) : PkKey :=
  match v.json with
  | .number n =>
    match n.asI64? with
    | some i => .int i
    | none => .float n.asF64Bits
  | .string s => .text s
  | other => .text (P.toText other)

namespace SegmentManifest

def new (schemaVersion : String) : SegmentManifest Hash := { schemaVersion, entries := [] }

def keyOf (r : SegmentRef Hash) : String ×ₗ PkKey := toLex (r.table, pkSortKey P r.pkLo)

def push (m : SegmentManifest Hash) (r : SegmentRef Hash) : SegmentManifest Hash :=
  let target := keyOf P r
  let pos := m.entries.findIdx (fun x => keyOf P x ≥ target)
  { m with entries := m.entries.insertIdx pos r }

def toJson (m : SegmentManifest Hash) : Json :=
  .object
    [("schema_version", .string m.schemaVersion),
     ("entries", .array (m.entries.map (SegmentRef.toJson P)))]

def fromJson : Json → Option (SegmentManifest Hash)
  | .object ms => do
    let schemaVersion ← required readStr ms "schema_version"
    let entries ← required (readList (SegmentRef.fromJson P)) ms "entries"
    some { schemaVersion, entries }
  | _ => none

def toCanonicalBytes (m : SegmentManifest Hash) : Bytes := P.toVec (m.toJson P)

def hash (m : SegmentManifest Hash) : Hash := P.of (m.toCanonicalBytes P)

def rangeOf (r : SegmentRef Hash) : String ×ₗ PkKey ×ₗ PkKey :=
  toLex (r.table, toLex (pkSortKey P r.pkLo, pkSortKey P r.pkHi))

inductive Invalid where
  | notJson
  | emptySchemaVersion
  | outOfOrder (next prev : String ×ₗ PkKey ×ₗ PkKey)
  | duplicate (table : String) (pkLo pkHi : Value)
  deriving DecidableEq

def checkPairs : List (SegmentRef Hash) → Except Invalid Unit
  | prev :: next :: rest =>
    if rangeOf P next < rangeOf P prev then
      .error (.outOfOrder (rangeOf P next) (rangeOf P prev))
    else if rangeOf P next = rangeOf P prev then
      .error (.duplicate next.table next.pkLo next.pkHi)
    else checkPairs (next :: rest)
  | _ => .ok ()

def validateInvariants (m : SegmentManifest Hash) : Except Invalid Unit :=
  if m.schemaVersion = "" then .error .emptySchemaVersion else checkPairs P m.entries

def fromCanonicalBytes (bytes : Bytes) : Except Invalid (SegmentManifest Hash) :=
  match (P.fromSlice bytes).bind (fromJson P) with
  | none => .error .notJson
  | some manifest => do
    manifest.validateInvariants P
    return manifest

theorem fromJson_toJson (m : SegmentManifest Hash) : fromJson P (m.toJson P) = some m := by
  have entries := readList_map _ _ (SegmentRef.fromJson_toJson P) m.entries
  simp [fromJson, toJson, required, field, entries]

theorem insertIdx_findIdx {α κ : Type} [LinearOrder κ] (key : α → κ) (a : α) (l : List α) :
    l.insertIdx (l.findIdx (fun x => key x ≥ key a)) a = Arrange.put key a l := by
  induction l with
  | nil => rfl
  | cons b l ih =>
    rw [Arrange.put_cons, List.findIdx_cons]
    by_cases before : key a ≤ key b
    · simp [before]
    · simp [before, ← ih]

theorem push_entries (m : SegmentManifest Hash) (r : SegmentRef Hash) :
    (m.push P r).entries = Arrange.put (keyOf P) r m.entries := insertIdx_findIdx _ r m.entries

theorem foldl_push (schemaVersion : String) (refs : List (SegmentRef Hash)) :
    refs.foldl (push P) (new schemaVersion) =
      { schemaVersion, entries := Arrange.arrange (keyOf P) refs } := by
  induction refs using List.reverseRecOn with
  | nil => rfl
  | append_singleton refs r ih =>
    rw [List.foldl_append, ih, Arrange.arrange_snoc]
    exact congrArg (SegmentManifest.mk schemaVersion) (push_entries P _ r)

theorem checkPairs_eq_ok_iff (l : List (SegmentRef Hash)) :
    checkPairs P l = .ok () ↔ l.Pairwise (fun a b => rangeOf P a < rangeOf P b) := by
  have chain : checkPairs P l = .ok () ↔ l.IsChain (fun a b => rangeOf P a < rangeOf P b) := by
    induction l with
    | nil => simp [checkPairs]
    | cons a l ih => cases l with
      | nil => simp [checkPairs]
      | cons b l =>
        rw [List.isChain_cons_cons, ← ih, checkPairs]
        split
        · rename_i below
          simp [not_lt_of_gt below]
        split
        · rename_i same
          simp [same]
        · rename_i notBelow notSame
          simp [lt_of_le_of_ne (not_lt.mp notBelow) (Ne.symm notSame)]
  have trans : Trans (fun a b : SegmentRef Hash => rangeOf P a < rangeOf P b)
      (fun a b => rangeOf P a < rangeOf P b) (fun a b => rangeOf P a < rangeOf P b) :=
    ⟨lt_trans⟩
  rw [chain, List.isChain_iff_pairwise]

theorem rangeOf_lt_iff (a b : SegmentRef Hash) :
    rangeOf P a < rangeOf P b ↔
      keyOf P a < keyOf P b ∨ keyOf P a = keyOf P b ∧ pkSortKey P a.pkHi < pkSortKey P b.pkHi := by
  simp only [rangeOf, keyOf, Prod.Lex.toLex_lt_toLex, toLex_inj, Prod.mk.injEq]
  tauto

theorem fromCanonicalBytes_iff (m : SegmentManifest Hash) :
    fromCanonicalBytes P (m.toCanonicalBytes P) = .ok m ↔
      m.schemaVersion ≠ "" ∧ Arrange.Strict (keyOf P) (fun r => pkSortKey P r.pkHi) m.entries := by
  have strict : Arrange.Strict (keyOf P) (fun r => pkSortKey P r.pkHi) m.entries ↔
      checkPairs P m.entries = .ok () := by
    rw [checkPairs_eq_ok_iff]
    simp only [Arrange.Strict, rangeOf_lt_iff]
  rw [strict, fromCanonicalBytes, toCanonicalBytes, P.fromSlice_toVec, Option.bind_some,
    m.fromJson_toJson]
  simp only [validateInvariants]
  by_cases empty : m.schemaVersion = ""
  · simp [empty]
  · simp only [ne_eq, empty, not_false_eq_true, true_and]
    cases checkPairs P m.entries <;> simp

end SegmentManifest

end

end GitAgentic
