import GitAgentic.Memory.Restore

/-! The baseline scan. The rows of a table go into segments that are sealed when a
running count of their bytes reaches the target. The count is kept without encoding
the segment again, and is exact up to the digits of the row count. -/
namespace GitAgentic

namespace Bootstrap

def digits (n : Nat) : Nat := (Nat.toDigits 10 n).length

section

variable {Hash σ : Type} (P : Platform Hash) (store : RawStore Hash σ)

def encodedLen (v : Value) : Nat := (P.toVec v.json).length

/-- `saturating_add_signed` of a count that stays below the greatest `usize`. -/
def saturatingAddSigned (n : Nat) (delta : Int) : Nat := (n + delta).toNat

structure Scan where
  current : Segment
  haveLo : Bool
  runningBytes : Nat
  prevPkHiBytes : Nat

def Scan.start (table schemaVersion : String) : Scan where
  current := blankSegment table schemaVersion
  haveLo := false
  runningBytes := (blankSegment table schemaVersion).canonicalSize P
  prevPkHiBytes := encodedLen P .null

def primaryKey (table : TrackedTable) (row : Value) : Except (MemoryError Hash) Value :=
  match row.get? table.pk with
  | none => .error (.backend (.absentPrimaryKey table.pk table.name))
  | some pk =>
    if pk.isNull then .error (.backend (.nullPrimaryKey table.pk table.name)) else .ok pk

def withKey (scan : Scan) (pkValue : Value) : Segment :=
  { scan.current with
    pkLo := if scan.haveLo then scan.current.pkLo else pkValue
    pkHi := pkValue }

/-- The count with the new key: the first row of a segment has the segment encoded, a
later one adds what its key is longer than the one before. -/
def keyBytes (scan : Scan) (current : Segment) : Nat :=
  let newPkHiBytes := encodedLen P current.pkHi
  if ¬ scan.haveLo then current.canonicalSize P
  else if newPkHiBytes ≠ scan.prevPkHiBytes then
    saturatingAddSigned scan.runningBytes ((newPkHiBytes : Int) - scan.prevPkHiBytes)
  else scan.runningBytes

def pushRow (current : Segment) (envelope : Value) : Segment :=
  let rows := current.rows ++ [envelope]
  { current with rows, rowCount := rows.length.toUInt64 }

/-- One row, up to the check of the size. -/
def countRow (table : TrackedTable) (scan : Scan) (row : Value) : Except (MemoryError Hash) Scan := do
  let pkValue ← primaryKey table row
  let current := withKey scan pkValue
  let envelope := Value.envelope "insert" row
  return {
    current := pushRow current envelope
    haveLo := true
    runningBytes := keyBytes P scan current + (encodedLen P envelope + 1)
    prevPkHiBytes := encodedLen P current.pkHi }

def reset (schemaVersion : String) (scan : Scan) : Scan :=
  let current := blankSegment scan.current.table schemaVersion
  { scan with current, haveLo := false, prevPkHiBytes := encodedLen P current.pkHi }

def sealSegment (current : Segment) (manifest : SegmentManifest Hash) (s : σ) :
    Except (MemoryError Hash) (SegmentManifest Hash) × σ :=
  match store.putRaw .segment (current.toCanonicalBytes P) s with
  | (.error e, s) => (.error (.backend (.persistingSegment e)), s)
  | (.ok hash, s) =>
    (.ok (manifest.push P
      { table := current.table
        pkLo := current.pkLo
        pkHi := current.pkHi
        segment := hash
        rowCount := current.rowCount }), s)

def scanRow (table : TrackedTable) (schemaVersion : String) (segmentTargetBytes : Nat) (scan : Scan)
    (manifest : SegmentManifest Hash) (row : Value) (s : σ) :
    Except (MemoryError Hash) (Scan × SegmentManifest Hash) × σ :=
  match countRow P table scan row with
  | .error e => (.error e, s)
  | .ok scan =>
    if scan.runningBytes ≥ segmentTargetBytes then
      match sealSegment P store scan.current manifest s with
      | (.error e, s) => (.error e, s)
      | (.ok manifest, s) => (.ok (reset P schemaVersion scan, manifest), s)
    else (.ok (scan, manifest), s)

/-- The loop over the rows. A row may fail to decode. -/
def scanRows (table : TrackedTable) (schemaVersion : String) (segmentTargetBytes : Nat) :
    List (Except (MemoryError Hash) Value) → Scan → SegmentManifest Hash → σ →
      Except (MemoryError Hash) (Scan × SegmentManifest Hash) × σ
  | [], scan, manifest, s => (.ok (scan, manifest), s)
  | row :: rows, scan, manifest, s =>
    match row with
    | .error e => (.error e, s)
    | .ok row =>
      match scanRow P store table schemaVersion segmentTargetBytes scan manifest row s with
      | (.error e, s) => (.error e, s)
      | (.ok (scan, manifest), s) =>
        scanRows table schemaVersion segmentTargetBytes rows scan manifest s

def scanTable (table : TrackedTable) (schemaVersion : String) (segmentTargetBytes : Nat)
    (rows : List (Except (MemoryError Hash) Value)) (scan : Scan) (manifest : SegmentManifest Hash)
    (s : σ) : Except (MemoryError Hash) (SegmentManifest Hash) × σ :=
  match scanRows P store table schemaVersion segmentTargetBytes rows scan manifest s with
  | (.error e, s) => (.error e, s)
  | (.ok (scan, manifest), s) =>
    if scan.current.rows ≠ [] then sealSegment P store scan.current manifest s
    else (.ok manifest, s)

def validateTable (table : TrackedTable) : Except (MemoryError Hash) Unit := do
  Restore.validateIdentifier table.name
  Restore.validateIdentifier table.pk

/-- `fetched` is what the query for the rows, ordered by key, came to. -/
def bootstrapTable (table : TrackedTable) (schemaVersion : String) (segmentTargetBytes : Nat)
    (fetched : Except (MemoryError Hash) (List (Except (MemoryError Hash) Value)))
    (manifest : SegmentManifest Hash) (s : σ) : Except (MemoryError Hash) (SegmentManifest Hash) × σ :=
  match (do validateTable table; fetched) with
  | .error e => (.error e, s)
  | .ok rows =>
    scanTable P store table schemaVersion segmentTargetBytes rows
      (.start P table.name schemaVersion) manifest s

/- The length of a segment. -/

theorem length_utf8_digits {cs : List Char} (digit : ∀ c ∈ cs, c.isDigit = true) :
    (utf8 cs).length = cs.length := by
  induction cs with
  | nil => rfl
  | cons c cs ih =>
    have small : c.utf8Size = 1 := by
      obtain ⟨_, le⟩ := Char.isDigit_iff_toNat.mp (digit c List.mem_cons_self)
      rw [Char.utf8Size_eq_one_iff, UInt32.le_iff_toNat_le]
      exact le.trans (by decide)
    have rest := ih (fun d hd => digit d (List.mem_cons_of_mem _ hd))
    simp only [utf8, List.flatMap_cons, List.length_append, String.length_utf8EncodeChar, small] at rest ⊢
    rw [rest, List.length_cons, Nat.add_comm]

@[simp] theorem length_utf8_append (cs ds : List Char) :
    (utf8 (cs ++ ds)).length = (utf8 cs).length + (utf8 ds).length := by
  rw [utf8_append, List.length_append]

theorem length_utf8_cons (c : Char) (cs : List Char) :
    (utf8 (c :: cs)).length = c.utf8Size + (utf8 cs).length := by
  simp [utf8]

def elemsLen (first : Bool) (rows : List Value) : Nat :=
  (utf8 (Json.textElems P.f64Text first (rows.map Value.json))).length

theorem elemsLen_cons (first : Bool) (v : Value) (rows : List Value) :
    elemsLen P first (v :: rows) =
      (if first then 0 else 1) + encodedLen P v + elemsLen P false rows := by
  have comma : (',' : Char).utf8Size = 1 := by decide
  cases first
  · simp only [elemsLen, encodedLen, Platform.toVec, List.map_cons, Json.textElems, length_utf8_cons,
      length_utf8_append, comma]
    simp [Nat.add_assoc]
  · simp [elemsLen, encodedLen, Platform.toVec, Json.textElems]

theorem elemsLen_append (first : Bool) (rows : List Value) (v : Value) :
    elemsLen P first (rows ++ [v]) =
      elemsLen P first rows + encodedLen P v + (if first ∧ rows = [] then 0 else 1) := by
  have close (first : Bool) : elemsLen P first [] = 1 := by cases first <;> rfl
  induction rows generalizing first with
  | nil =>
    rw [List.nil_append, elemsLen_cons, close, close]
    cases first
    · simp
    · simp
      omega
  | cons r rows ih =>
    rw [List.cons_append, elemsLen_cons, elemsLen_cons, ih]
    simp
    omega

def variableLen (s : Segment) : Nat :=
  encodedLen P s.pkLo + encodedLen P s.pkHi + digits s.rowCount.toNat + elemsLen P true s.rows

def frameLen (s : Segment) : Nat :=
  (P.toVec (.object [("table", .string s.table), ("schema_version", .string s.schemaVersion)])).length +
    (P.toVec (.object [("embeddings", .array (s.embeddings.map Embedding.toJson)),
      ("metadata", .object (s.metadata.entries.map (fun e => (e.1, e.2.json))))])).length + 39

theorem canonicalSize_eq (s : Segment) : s.canonicalSize P = frameLen P s + variableLen P s := by
  have names : (utf8 (Json.quote "pk_lo")).length = 7 ∧ (utf8 (Json.quote "pk_hi")).length = 7 ∧
      (utf8 (Json.quote "row_count")).length = 11 ∧ (utf8 (Json.quote "rows")).length = 6 := by
    decide
  have marks : (',' : Char).utf8Size = 1 ∧ (':' : Char).utf8Size = 1 ∧ ('[' : Char).utf8Size = 1 ∧
      ('{' : Char).utf8Size = 1 ∧ ('}' : Char).utf8Size = 1 := by decide
  have count : (utf8 (Nat.toDigits 10 s.rowCount.toNat)).length = digits s.rowCount.toNat :=
    length_utf8_digits (fun c hc => Nat.isDigit_of_mem_toDigits (by decide) (by decide) hc)
  simp only [Segment.canonicalSize, Segment.toCanonicalBytes, Segment.toJson, frameLen, variableLen,
    encodedLen, elemsLen, Platform.toVec, Json.text, Json.textMembers, u64Json, Json.textNumber,
    length_utf8_append, length_utf8_cons, names, marks, count]
  have closed : (utf8 []).length = 0 := rfl
  rw [closed]
  ring

/- What the scan comes to: the rows in groups, one group a segment. -/

/-- Every row has its key, and the key is not null. -/
def Keyed (table : TrackedTable) (row : Value) : Prop :=
  ∃ pk, row.get? table.pk = some pk ∧ pk.isNull = false

def keyOf (table : TrackedTable) (row : Value) : Value := (row.get? table.pk).getD .null

/-- The segment of some rows of the table. -/
def segmentOf (table : TrackedTable) (schemaVersion : String) (rows : List Value) : Segment where
  table := table.name
  schemaVersion := schemaVersion
  pkLo := (rows.head?.map (keyOf table)).getD .null
  pkHi := (rows.getLast?.map (keyOf table)).getD .null
  rowCount := rows.length.toUInt64
  rows := rows.map (Value.envelope "insert")
  embeddings := []
  metadata := .empty

/-- The length of the segment, plus two, less the digits of its row count. -/
def Reaches (table : TrackedTable) (schemaVersion : String) (segmentTargetBytes : Nat)
    (rows : List Value) : Prop :=
  segmentTargetBytes + digits rows.length ≤ (segmentOf table schemaVersion rows).canonicalSize P + 2

instance (table : TrackedTable) (schemaVersion : String) (segmentTargetBytes : Nat)
    (rows : List Value) : Decidable (Reaches P table schemaVersion segmentTargetBytes rows) :=
  inferInstanceAs (Decidable (_ ≤ _))

def groups (table : TrackedTable) (schemaVersion : String) (segmentTargetBytes : Nat) :
    List Value → List Value → List (List Value)
  | group, [] => if group = [] then [] else [group]
  | group, row :: rows =>
    if Reaches P table schemaVersion segmentTargetBytes (group ++ [row]) then
      (group ++ [row]) :: groups table schemaVersion segmentTargetBytes [] rows
    else groups table schemaVersion segmentTargetBytes (group ++ [row]) rows

def sealEach : List Segment → SegmentManifest Hash → σ →
    Except (MemoryError Hash) (SegmentManifest Hash) × σ
  | [], manifest, s => (.ok manifest, s)
  | segment :: segments, manifest, s =>
    match sealSegment P store segment manifest s with
    | (.error e, s) => (.error e, s)
    | (.ok manifest, s) => sealEach segments manifest s

/-- The scan has these rows in its segment. -/
structure Holds (table : TrackedTable) (schemaVersion : String) (scan : Scan) (group : List Value) :
    Prop where
  current : scan.current = segmentOf table schemaVersion group
  haveLo : scan.haveLo = !group.isEmpty
  prev : scan.prevPkHiBytes = encodedLen P scan.current.pkHi
  running : group ≠ [] → scan.runningBytes + digits group.length = scan.current.canonicalSize P + 2

section

variable {table : TrackedTable} {schemaVersion : String}

theorem frameLen_segmentOf (rows others : List Value) :
    frameLen P (segmentOf table schemaVersion rows) = frameLen P (segmentOf table schemaVersion others) :=
  rfl

theorem start_holds : Holds P table schemaVersion (.start P table.name schemaVersion) [] where
  current := rfl
  haveLo := rfl
  prev := rfl
  running h := absurd rfl h

theorem reset_holds {scan : Scan} {group : List Value} (h : Holds P table schemaVersion scan group) :
    Holds P table schemaVersion (reset P schemaVersion scan) [] where
  current := by
    simp only [reset, h.current]
    rfl
  haveLo := rfl
  prev := rfl
  running h := absurd rfl h

theorem rowCount_segmentOf {rows : List Value} (small : rows.length < 2 ^ 64) :
    (segmentOf table schemaVersion rows).rowCount.toNat = rows.length := by
  simp only [segmentOf, Nat.toUInt64, UInt64.toNat_ofNat']
  exact Nat.mod_eq_of_lt small

theorem pushRow_withKey {scan : Scan} {group : List Value}
    (h : Holds P table schemaVersion scan group) (row : Value) :
    pushRow (withKey scan (keyOf table row)) (Value.envelope "insert" row) =
      segmentOf table schemaVersion (group ++ [row]) := by
  have lo : (if scan.haveLo then scan.current.pkLo else keyOf table row) =
      (segmentOf table schemaVersion (group ++ [row])).pkLo := by
    rw [h.haveLo, h.current]
    cases group <;> rfl
  have hi : keyOf table row = (segmentOf table schemaVersion (group ++ [row])).pkHi := by
    simp [segmentOf]
  unfold pushRow withKey
  rw [lo, h.current]
  simp only [segmentOf, List.length_append, List.length_map, List.length_singleton, List.map_append,
    List.map_singleton, List.getLast?_concat, Option.map_some, Option.getD_some]

theorem canonicalSize_append {group : List Value} (nonempty : group ≠ []) (row : Value)
    (small : group.length + 1 < 2 ^ 64) :
    (segmentOf table schemaVersion (group ++ [row])).canonicalSize P +
        encodedLen P (segmentOf table schemaVersion group).pkHi + digits group.length =
      (segmentOf table schemaVersion group).canonicalSize P + encodedLen P (keyOf table row) +
        digits (group.length + 1) + encodedLen P (Value.envelope "insert" row) + 1 := by
  have lo : (segmentOf table schemaVersion (group ++ [row])).pkLo =
      (segmentOf table schemaVersion group).pkLo := by
    cases group with
    | nil => exact absurd rfl nonempty
    | cons first group => rfl
  have hi : (segmentOf table schemaVersion (group ++ [row])).pkHi = keyOf table row := by
    simp [segmentOf]
  have rows : elemsLen P true (segmentOf table schemaVersion (group ++ [row])).rows =
      elemsLen P true (segmentOf table schemaVersion group).rows +
        encodedLen P (Value.envelope "insert" row) + 1 := by
    simp only [segmentOf, List.map_append, List.map_singleton, elemsLen_append, List.map_eq_nil_iff,
      nonempty, and_false, if_false]
  have before : (segmentOf table schemaVersion group).rowCount.toNat = group.length :=
    rowCount_segmentOf (by omega)
  have after : (segmentOf table schemaVersion (group ++ [row])).rowCount.toNat = group.length + 1 := by
    have length : (group ++ [row]).length = group.length + 1 := List.length_append
    rw [rowCount_segmentOf (length ▸ small), length]
  rw [canonicalSize_eq, canonicalSize_eq, frameLen_segmentOf P (group ++ [row]) group]
  simp only [variableLen, lo, hi, rows, before, after]
  omega

def firstKeyed (table : TrackedTable) (schemaVersion : String) (row : Value) : Segment :=
  { blankSegment table.name schemaVersion with pkLo := keyOf table row, pkHi := keyOf table row }

theorem canonicalSize_first (row : Value) :
    (segmentOf table schemaVersion [row]).canonicalSize P =
      (firstKeyed table schemaVersion row).canonicalSize P +
        encodedLen P (Value.envelope "insert" row) := by
  have rows : elemsLen P true [Value.envelope "insert" row] =
      elemsLen P true [] + encodedLen P (Value.envelope "insert" row) :=
    elemsLen_append P true [] _
  have one : digits 1 = digits 0 := by decide
  have frame : frameLen P (segmentOf table schemaVersion [row]) =
      frameLen P (firstKeyed table schemaVersion row) := rfl
  have left : variableLen P (segmentOf table schemaVersion [row]) =
      encodedLen P (keyOf table row) + encodedLen P (keyOf table row) + digits 1 +
        elemsLen P true [Value.envelope "insert" row] := rfl
  have right : variableLen P (firstKeyed table schemaVersion row) =
      encodedLen P (keyOf table row) + encodedLen P (keyOf table row) + digits 0 +
        elemsLen P true [] := rfl
  rw [canonicalSize_eq, canonicalSize_eq, frame, left, right, rows, one]
  omega

theorem primaryKey_keyed {row : Value} (keyed : Keyed table row) :
    (primaryKey table row : Except (MemoryError Hash) Value) = .ok (keyOf table row) := by
  obtain ⟨pk, found, present⟩ := keyed
  simp only [primaryKey, keyOf, found, present]
  rfl

theorem keyBytes_later {scan : Scan} {current : Segment} (later : scan.haveLo = true)
    (holds : scan.prevPkHiBytes ≤ scan.runningBytes) :
    keyBytes P scan current + scan.prevPkHiBytes =
      scan.runningBytes + encodedLen P current.pkHi := by
  simp only [keyBytes, later, not_true_eq_false, if_false, saturatingAddSigned]
  split <;> omega

theorem pkHi_le_canonicalSize (s : Segment) :
    encodedLen P s.pkHi + digits s.rowCount.toNat ≤ s.canonicalSize P := by
  rw [canonicalSize_eq, variableLen]
  omega

theorem keyBytes_holds {scan : Scan} {group : List Value} (h : Holds P table schemaVersion scan group)
    (row : Value) (small : group.length + 1 < 2 ^ 64) :
    keyBytes P scan (withKey scan (keyOf table row)) +
        (encodedLen P (Value.envelope "insert" row) + 1) + digits (group.length + 1) =
      (segmentOf table schemaVersion (group ++ [row])).canonicalSize P + 2 := by
  cases group with
  | nil =>
    have first : scan.haveLo = false := h.haveLo
    have one : digits 1 = 1 := by decide
    have encoded : keyBytes P scan (withKey scan (keyOf table row)) =
        (firstKeyed table schemaVersion row).canonicalSize P := by
      simp only [keyBytes, withKey, first, h.current]
      rfl
    rw [encoded, List.nil_append, canonicalSize_first, List.length_nil, Nat.zero_add, one]
    omega
  | cons v group =>
    have later : scan.haveLo = true := h.haveLo
    have running := h.running (List.cons_ne_nil v group)
    have bound := pkHi_le_canonicalSize P scan.current
    have prev := h.prev
    have count : scan.current.rowCount.toNat = (v :: group).length := by
      rw [h.current]
      exact rowCount_segmentOf (by omega)
    rw [count] at bound
    have delta : keyBytes P scan (withKey scan (keyOf table row)) + scan.prevPkHiBytes =
        scan.runningBytes + encodedLen P (keyOf table row) := keyBytes_later P later (by omega)
    have added : (segmentOf table schemaVersion (v :: group ++ [row])).canonicalSize P +
          scan.prevPkHiBytes + digits (v :: group).length =
        scan.current.canonicalSize P + encodedLen P (keyOf table row) +
          digits ((v :: group).length + 1) + encodedLen P (Value.envelope "insert" row) + 1 := by
      rw [prev, h.current]
      exact canonicalSize_append P (List.cons_ne_nil v group) row small
    omega

theorem countRow_holds {scan : Scan} {group : List Value} (h : Holds P table schemaVersion scan group)
    {row : Value} (keyed : Keyed table row) (small : group.length + 1 < 2 ^ 64) :
    ∃ scan' : Scan, countRow P table scan row = (.ok scan' : Except (MemoryError Hash) Scan) ∧
      Holds P table schemaVersion scan' (group ++ [row]) := by
  refine ⟨_, by rw [countRow, primaryKey_keyed keyed]; rfl, ?_⟩
  refine ⟨pushRow_withKey P h row, by simp, rfl, fun _ => ?_⟩
  rw [List.length_append, List.length_singleton, pushRow_withKey P h row]
  exact keyBytes_holds P h row small

theorem reaches_iff {scan : Scan} {group : List Value} (h : Holds P table schemaVersion scan group)
    (nonempty : group ≠ []) (segmentTargetBytes : Nat) :
    scan.runningBytes ≥ segmentTargetBytes ↔
      Reaches P table schemaVersion segmentTargetBytes group := by
  have running := h.running nonempty
  rw [h.current] at running
  unfold Reaches
  omega

theorem scanTable_cons (segmentTargetBytes : Nat) {scan scan' : Scan} {row : Value}
    (counted : countRow P table scan row = (.ok scan' : Except (MemoryError Hash) Scan))
    (rows : List (Except (MemoryError Hash) Value)) (manifest : SegmentManifest Hash) (s : σ) :
    scanTable P store table schemaVersion segmentTargetBytes (.ok row :: rows) scan manifest s =
      if scan'.runningBytes ≥ segmentTargetBytes then
        match sealSegment P store scan'.current manifest s with
        | (.error e, s) => (.error e, s)
        | (.ok manifest, s) =>
          scanTable P store table schemaVersion segmentTargetBytes rows
            (reset P schemaVersion scan') manifest s
      else scanTable P store table schemaVersion segmentTargetBytes rows scan' manifest s := by
  simp only [scanTable, scanRows, scanRow, counted]
  by_cases full : scan'.runningBytes ≥ segmentTargetBytes
  · simp only [if_pos full]
    rcases sealSegment P store scan'.current manifest s with ⟨e | manifest', s'⟩ <;> rfl
  · simp only [if_neg full]

theorem scanTable_groups (segmentTargetBytes : Nat) {scan : Scan} {group rows : List Value}
    (h : Holds P table schemaVersion scan group) (keyed : ∀ row ∈ rows, Keyed table row)
    (small : group.length + rows.length < 2 ^ 64) (manifest : SegmentManifest Hash) (s : σ) :
    scanTable P store table schemaVersion segmentTargetBytes (rows.map .ok) scan manifest s =
      sealEach P store ((groups P table schemaVersion segmentTargetBytes group rows).map
        (segmentOf table schemaVersion)) manifest s := by
  induction rows generalizing scan group manifest s with
  | nil =>
    cases group with
    | nil =>
      simp [scanTable, scanRows, groups, sealEach, h.current, segmentOf]
    | cons v group =>
      have some_rows : (segmentOf table schemaVersion (v :: group)).rows ≠ [] := List.cons_ne_nil _ _
      have left : groups P table schemaVersion segmentTargetBytes (v :: group) [] = [v :: group] := rfl
      simp only [scanTable, scanRows, List.map_nil, h.current, left, List.map_cons, sealEach,
        if_pos some_rows]
      split <;> assumption
  | cons row rows ih =>
    have sizes : group.length + 1 + rows.length < 2 ^ 64 := by
      rw [List.length_cons] at small
      omega
    obtain ⟨scan', counted, holds⟩ :=
      countRow_holds P h (keyed row List.mem_cons_self) (by omega)
    have others : ∀ q ∈ rows, Keyed table q := fun q hq => keyed q (List.mem_cons_of_mem _ hq)
    have reaches := reaches_iff P holds (by simp) segmentTargetBytes
    rw [List.map_cons, scanTable_cons P store segmentTargetBytes counted, groups]
    by_cases full : Reaches P table schemaVersion segmentTargetBytes (group ++ [row])
    · rw [if_pos full, if_pos (reaches.mpr full), List.map_cons, sealEach, holds.current]
      split
      · rfl
      · exact ih (reset_holds P holds) others (by rw [List.length_nil]; omega) _ _
    · rw [if_neg full, if_neg (mt reaches.mp full)]
      exact ih holds others (by rw [List.length_append, List.length_singleton]; omega) manifest s

/-- The groups are the rows in order; the target is reached by all of them but possibly
the last, and by no proper beginning of one. -/
structure CutAtTarget (table : TrackedTable) (schemaVersion : String) (segmentTargetBytes : Nat)
    (group rows : List Value) (gs : List (List Value)) : Prop where
  whole : gs.flatten = group ++ rows
  nonempty : ∀ g ∈ gs, g ≠ []
  reached : ∀ g ∈ gs.dropLast, Reaches P table schemaVersion segmentTargetBytes g
  first : ∀ g ∈ gs, ∀ n, 0 < n → n < g.length →
    ¬ Reaches P table schemaVersion segmentTargetBytes (g.take n)

theorem groups_cut (segmentTargetBytes : Nat) {group rows : List Value}
    (before : ∀ n, 0 < n → n ≤ group.length →
      ¬ Reaches P table schemaVersion segmentTargetBytes (group.take n)) :
    CutAtTarget P table schemaVersion segmentTargetBytes group rows
      (groups P table schemaVersion segmentTargetBytes group rows) := by
  induction rows generalizing group with
  | nil =>
    cases group with
    | nil => exact ⟨rfl, by simp [groups], by simp [groups], by simp [groups]⟩
    | cons v group =>
      have left : groups P table schemaVersion segmentTargetBytes (v :: group) [] = [v :: group] := rfl
      rw [left]
      refine ⟨by simp, by simp, by simp, ?_⟩
      intro g hg n positive inside
      cases List.mem_singleton.mp hg
      exact before n positive inside.le
  | cons row rows ih =>
    have beginning : ∀ n, 0 < n → n < (group ++ [row]).length →
        ¬ Reaches P table schemaVersion segmentTargetBytes ((group ++ [row]).take n) := by
      intro n positive inside
      rw [List.length_append, List.length_singleton] at inside
      rw [List.take_append_of_le_length (by omega)]
      exact before n positive (by omega)
    rw [groups]
    by_cases full : Reaches P table schemaVersion segmentTargetBytes (group ++ [row])
    · rw [if_pos full]
      have rest : CutAtTarget P table schemaVersion segmentTargetBytes [] rows
          (groups P table schemaVersion segmentTargetBytes [] rows) :=
        ih (fun n positive inside => absurd (positive.trans_le inside) (lt_irrefl 0))
      refine ⟨by simp [rest.whole], ?_, ?_, ?_⟩
      · exact List.forall_mem_cons.mpr ⟨by simp, rest.nonempty⟩
      · intro g hg
        cases more : groups P table schemaVersion segmentTargetBytes [] rows with
        | nil =>
          rw [more] at hg
          cases hg
        | cons next others =>
          have reached := rest.reached
          rw [more] at hg reached
          rcases List.mem_cons.mp hg with rfl | hg
          · exact full
          · exact reached g hg
      · exact List.forall_mem_cons.mpr ⟨beginning, rest.first⟩
    · rw [if_neg full]
      have rest : CutAtTarget P table schemaVersion segmentTargetBytes (group ++ [row]) rows
          (groups P table schemaVersion segmentTargetBytes (group ++ [row]) rows) := by
        refine ih (fun n positive inside => ?_)
        rcases Nat.lt_or_eq_of_le inside with inside | rfl
        · exact beginning n positive inside
        · rw [List.take_length]
          exact full
      exact ⟨by simp [rest.whole], rest.nonempty, rest.reached, rest.first⟩

theorem scanRow_holds (segmentTargetBytes : Nat) {scan after : Scan} {group : List Value}
    (h : Holds P table schemaVersion scan group) {row : Value} (keyed : Keyed table row)
    (small : group.length + 1 < 2 ^ 64) {manifest manifest' : SegmentManifest Hash} {s s' : σ}
    (done : scanRow P store table schemaVersion segmentTargetBytes scan manifest row s =
      (.ok (after, manifest'), s')) :
    ∃ group', Holds P table schemaVersion after group' ∧ group'.length ≤ group.length + 1 := by
  obtain ⟨scan', counted, holds⟩ := countRow_holds P h keyed small
  simp only [scanRow, counted] at done
  split at done
  · split at done
    · cases done
    · cases done
      exact ⟨[], reset_holds P holds, Nat.zero_le _⟩
  · cases done
    exact ⟨group ++ [row], holds, by simp⟩

theorem scanRows_holds (segmentTargetBytes : Nat) {scan after : Scan} {group rows : List Value}
    (h : Holds P table schemaVersion scan group) (keyed : ∀ row ∈ rows, Keyed table row)
    (small : group.length + rows.length < 2 ^ 64) {manifest manifest' : SegmentManifest Hash} {s s' : σ}
    (done : scanRows P store table schemaVersion segmentTargetBytes (rows.map .ok) scan manifest s =
      (.ok (after, manifest'), s')) :
    ∃ group', Holds P table schemaVersion after group' ∧
      group'.length ≤ group.length + rows.length := by
  induction rows generalizing scan group manifest s with
  | nil =>
    cases done
    exact ⟨group, h, Nat.le_refl _⟩
  | cons row rows ih =>
    rw [List.length_cons] at small
    simp only [List.map_cons, scanRows] at done
    split at done
    · cases done
    · rename_i one
      obtain ⟨group', holds, bound⟩ :=
        scanRow_holds P store segmentTargetBytes h (keyed row List.mem_cons_self) (by omega) one
      obtain ⟨last, lastHolds, lastBound⟩ :=
        ih holds (fun q hq => keyed q (List.mem_cons_of_mem _ hq)) (by omega) done
      refine ⟨last, lastHolds, ?_⟩
      rw [List.length_cons]
      omega

/-- The count after a row, for any row of the table that the loop comes to. -/
def CountedExactly (table : TrackedTable) (schemaVersion : String) (segmentTargetBytes : Nat)
    (rows : List Value) (manifest : SegmentManifest Hash) (s : σ) : Prop :=
  ∀ before row after scan manifest' s', rows = before ++ row :: after →
    scanRows P store table schemaVersion segmentTargetBytes (before.map .ok)
        (.start P table.name schemaVersion) manifest s = (.ok (scan, manifest'), s') →
    ∃ scan' : Scan, countRow P table scan row = (.ok scan' : Except (MemoryError Hash) Scan) ∧
      (scan'.runningBytes : Int) =
        scan'.current.canonicalSize P + 2 - digits scan'.current.rows.length

theorem countedExactly (segmentTargetBytes : Nat) {rows : List Value}
    (keyed : ∀ row ∈ rows, Keyed table row) (small : rows.length < 2 ^ 64)
    (manifest : SegmentManifest Hash) (s : σ) :
    CountedExactly P store table schemaVersion segmentTargetBytes rows manifest s := by
  rintro before row after scan manifest' s' rfl done
  rw [List.length_append, List.length_cons] at small
  obtain ⟨group, holds, bound⟩ := scanRows_holds P store segmentTargetBytes (start_holds P)
    (fun q hq => keyed q (List.mem_append_left _ hq)) (by rw [List.length_nil]; omega) done
  rw [List.length_nil, Nat.zero_add] at bound
  obtain ⟨scan', counted, holds'⟩ := countRow_holds P holds
    (keyed row (List.mem_append_right _ List.mem_cons_self)) (by omega)
  refine ⟨scan', counted, ?_⟩
  have running := holds'.running (by simp)
  have count : scan'.current.rows.length = (group ++ [row]).length := by
    rw [holds'.current, segmentOf, List.length_map]
  rw [count]
  omega

/-- The entry of a group that was sealed: its ends are the keys of its first and last row,
and the store returns its rows under the hash. -/
structure SealedGroup (table : TrackedTable) (schemaVersion : String) (s : σ) (group : List Value)
    (r : SegmentRef Hash) : Prop where
  name : r.table = table.name
  pkLo : group.head?.bind (·.get? table.pk) = some r.pkLo
  pkHi : group.getLast?.bind (·.get? table.pk) = some r.pkHi
  rowCount : r.rowCount.toNat = group.length
  segment : store.getRaw s r.segment =
    .ok ((segmentOf table schemaVersion group).toCanonicalBytes P)

theorem SealedGroup.after {s : σ} {group : List Value} {r : SegmentRef Hash}
    (h : SealedGroup P store table schemaVersion s group r) (kind : ObjectKind) (bytes : Bytes) :
    SealedGroup P store table schemaVersion (store.putRaw kind bytes s).2 group r :=
  ⟨h.name, h.pkLo, h.pkHi, h.rowCount, store.kept kind bytes s r.segment _ h.segment⟩

/-- The manifest has an entry for every group, pushed in the order of the groups. -/
def ListsGroups (table : TrackedTable) (schemaVersion : String) (gs : List (List Value))
    (manifest manifest' : SegmentManifest Hash) (s : σ) : Prop :=
  ∃ refs, List.Forall₂ (SealedGroup P store table schemaVersion s) gs refs ∧
    manifest' = refs.foldl (SegmentManifest.push P) manifest ∧
    manifest'.entries.Perm (manifest.entries ++ refs)

/-- A group cannot be stored. The ones before it are sealed. -/
def StopsAtGroup (table : TrackedTable) (schemaVersion : String) (gs : List (List Value))
    (e : MemoryError Hash) (s : σ) : Prop :=
  ∃ front group rest refs before cause, gs = front ++ group :: rest ∧
    List.Forall₂ (SealedGroup P store table schemaVersion s) front refs ∧
    store.putRaw .segment ((segmentOf table schemaVersion group).toCanonicalBytes P) before =
      (.error cause, s) ∧
    e = .backend (.persistingSegment cause)

theorem push_perm (m : SegmentManifest Hash) (r : SegmentRef Hash) :
    (m.push P r).entries.Perm (r :: m.entries) := by
  rw [SegmentManifest.push_entries]
  exact List.perm_orderedInsert _ r m.entries

theorem foldl_push_perm (refs : List (SegmentRef Hash)) (m : SegmentManifest Hash) :
    (refs.foldl (SegmentManifest.push P) m).entries.Perm (m.entries ++ refs) := by
  induction refs generalizing m with
  | nil => rw [List.append_nil]; rfl
  | cons r refs ih => exact (ih _).trans (((push_perm P m r).append_right refs).trans List.perm_middle.symm)

theorem sealedGroup {group : List Value} (nonempty : group ≠ [])
    (keyed : ∀ row ∈ group, Keyed table row) (small : group.length < 2 ^ 64) {s s' : σ} {hash : Hash}
    (put : store.putRaw .segment ((segmentOf table schemaVersion group).toCanonicalBytes P) s =
      (.ok hash, s')) :
    SealedGroup P store table schemaVersion s' group
      { table := (segmentOf table schemaVersion group).table
        pkLo := (segmentOf table schemaVersion group).pkLo
        pkHi := (segmentOf table schemaVersion group).pkHi
        segment := hash
        rowCount := (segmentOf table schemaVersion group).rowCount } where
  name := rfl
  pkLo := by
    obtain ⟨row, rest, rfl⟩ := List.exists_cons_of_ne_nil nonempty
    obtain ⟨pk, found, _⟩ := keyed row List.mem_cons_self
    simp [segmentOf, keyOf, found]
  pkHi := by
    obtain ⟨pk, found, _⟩ := keyed _ (List.getLast_mem nonempty)
    simp [segmentOf, keyOf, List.getLast?_eq_getLast_of_ne_nil nonempty, found]
  rowCount := by
    rw [rowCount_segmentOf small]
  segment := store.stored _ _ _ _ _ put

theorem sealEach_outcome {gs : List (List Value)} (nonempty : ∀ g ∈ gs, g ≠ [])
    (keyed : ∀ g ∈ gs, ∀ row ∈ g, Keyed table row) (small : ∀ g ∈ gs, g.length < 2 ^ 64)
    {sealed : List (List Value)} {refs : List (SegmentRef Hash)} (manifest : SegmentManifest Hash)
    {s : σ} (done : List.Forall₂ (SealedGroup P store table schemaVersion s) sealed refs) :
    match sealEach P store (gs.map (segmentOf table schemaVersion))
        (refs.foldl (SegmentManifest.push P) manifest) s with
    | (.ok manifest', s') => ListsGroups P store table schemaVersion (sealed ++ gs) manifest manifest' s'
    | (.error e, s') => StopsAtGroup P store table schemaVersion (sealed ++ gs) e s' := by
  induction gs generalizing sealed refs s with
  | nil =>
    rw [List.append_nil]
    exact ⟨refs, done, rfl, foldl_push_perm P refs manifest⟩
  | cons g gs ih =>
    have kept : List.Forall₂ (SealedGroup P store table schemaVersion
        (store.putRaw .segment ((segmentOf table schemaVersion g).toCanonicalBytes P) s).2) sealed refs :=
      done.imp (fun _ _ h => h.after P store _ _)
    rw [List.map_cons, sealEach, sealSegment]
    cases put : store.putRaw .segment ((segmentOf table schemaVersion g).toCanonicalBytes P) s with
    | mk result s' =>
      rw [put] at kept
      cases result with
      | error cause => exact ⟨sealed, g, gs, refs, s, cause, rfl, kept, put, rfl⟩
      | ok hash =>
        have entry := sealedGroup P store (nonempty g List.mem_cons_self) (keyed g List.mem_cons_self)
          (small g List.mem_cons_self) put
        have rest := ih (fun h hh => nonempty h (List.mem_cons_of_mem g hh))
          (fun h hh => keyed h (List.mem_cons_of_mem g hh))
          (fun h hh => small h (List.mem_cons_of_mem g hh)) (List.rel_append kept (.cons entry .nil))
        rw [List.foldl_append, List.append_assoc] at rest
        exact rest

/-- The scan of a table: the counter is exact up to the digits of the row count, and the
rows are cut where the exact length reaches the target; the manifest lists the groups in
order, and the store returns the segment of each. -/
theorem bootstrapTable_exact (table : TrackedTable) (schemaVersion : String)
    (segmentTargetBytes : Nat) {rows : List Value} (keyed : ∀ row ∈ rows, Keyed table row)
    (small : rows.length < 2 ^ 64) (manifest : SegmentManifest Hash) (s : σ) :
    CountedExactly P store table schemaVersion segmentTargetBytes rows manifest s ∧
      ∃ gs, CutAtTarget P table schemaVersion segmentTargetBytes [] rows gs ∧
        (gs.map (segmentOf table schemaVersion)).flatMap Segment.rows =
          rows.map (Value.envelope "insert") ∧
        match bootstrapTable P store table schemaVersion segmentTargetBytes (.ok (rows.map .ok))
            manifest s with
        | (.ok manifest', s') => validateTable table = (.ok () : Except (MemoryError Hash) Unit) ∧
            ListsGroups P store table schemaVersion gs manifest manifest' s'
        | (.error e, s') => validateTable table = .error e ∧ s' = s ∨
            StopsAtGroup P store table schemaVersion gs e s' := by
  have cut : CutAtTarget P table schemaVersion segmentTargetBytes [] rows
      (groups P table schemaVersion segmentTargetBytes [] rows) :=
    groups_cut P segmentTargetBytes
      (fun n positive inside => absurd (positive.trans_le inside) (lt_irrefl 0))
  have inRows : ∀ g ∈ groups P table schemaVersion segmentTargetBytes [] rows, g.Sublist rows := by
    intro g hg
    have part := List.sublist_flatten_of_mem hg
    rw [cut.whole, List.nil_append] at part
    exact part
  refine ⟨countedExactly P store segmentTargetBytes keyed small manifest s, _, cut, ?_, ?_⟩
  · have whole := congrArg (List.map (Value.envelope "insert")) cut.whole
    rw [List.nil_append, List.map_flatten] at whole
    rw [← whole, List.flatMap_map, List.flatMap_def]
    rfl
  · rw [bootstrapTable]
    cases valid : (validateTable table : Except (MemoryError Hash) Unit) with
    | error e => exact Or.inl ⟨rfl, rfl⟩
    | ok u =>
      have scanned := scanTable_groups P store segmentTargetBytes
        (@start_holds Hash P table schemaVersion) keyed (by rw [List.length_nil]; omega) manifest s
      have outcome := sealEach_outcome P store cut.nonempty
        (fun g hg row hrow => keyed row ((inRows g hg).subset hrow))
        (fun g hg => (inRows g hg).length_le.trans_lt small) manifest
        (List.Forall₂.nil : List.Forall₂ (SealedGroup P store table schemaVersion s) [] [])
      simp only [bind, Except.bind, scanned]
      rw [List.foldl_nil, List.nil_append] at outcome
      split at outcome
      · exact ⟨trivial, outcome⟩
      · exact Or.inr outcome

end

/-- Three rows, the later ones with longer keys, and a target that the first two reach: two
segments are sealed. -/
theorem bootstrapTable_exact_notes :
    let table : TrackedTable := { name := "notes", pk := "id" }
    let rows : List Value :=
      [.ofJson (.object [("id", .string "a")]), .ofJson (.object [("id", .string "bb")]),
        .ofJson (.object [("id", .string "ccc")])]
    CountedExactly Platform.sample RawStore.identity table "1" 170 rows (.new "1") () ∧
      ∃ gs manifest', CutAtTarget Platform.sample table "1" 170 [] rows gs ∧
        bootstrapTable Platform.sample RawStore.identity table "1" 170 (.ok (rows.map .ok)) (.new "1")
          () = (.ok manifest', ()) ∧
        ListsGroups Platform.sample RawStore.identity table "1" gs (.new "1") manifest' () := by
  intro table rows
  have keyed : ∀ row ∈ rows, Keyed table row := by
    intro row hrow
    rcases List.mem_cons.mp hrow with rfl | hrow
    · exact ⟨.ofJson (.string "a"), rfl, rfl⟩
    rcases List.mem_cons.mp hrow with rfl | hrow
    · exact ⟨.ofJson (.string "bb"), rfl, rfl⟩
    · cases List.mem_singleton.mp hrow
      exact ⟨.ofJson (.string "ccc"), rfl, rfl⟩
  have small : rows.length < 2 ^ 64 := by decide
  obtain ⟨counted, gs, cut, -, outcome⟩ := bootstrapTable_exact Platform.sample RawStore.identity
    table "1" 170 keyed small (.new "1") ()
  refine ⟨counted, gs, ?_⟩
  split at outcome
  · rename_i manifest' s' done
    exact ⟨manifest', cut, done, outcome.2⟩
  · rcases outcome with ⟨invalid, _⟩ | ⟨_, _, _, _, _, _, _, _, failed, _⟩
    · have valid : validateTable table = (.ok () : Except (MemoryError Bytes) Unit) := by decide
      rw [valid] at invalid
      cases invalid
    · cases failed

end

end Bootstrap

end GitAgentic
