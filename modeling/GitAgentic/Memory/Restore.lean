import GitAgentic.Memory.Streamer

/-! Writing a manifest back: every tracked table is emptied, then the rows of its
segments are applied in manifest order. Consecutive rows of one shape go into one
statement; the batches leave what the rows leave one by one. -/
namespace GitAgentic

abbrev Row := String → Json

/-- Rows by primary key. A column that a row does not set is null. -/
abbrev Table := Json → Option Row

namespace Restore

inductive BatchMode where
  | upsert | delete
  deriving DecidableEq, Repr

def batchModeOf : Op → BatchMode
  | .insert | .update => .upsert
  | .delete => .delete

def batchMaxRows : Nat := 1000
def batchMaxParams : Nat := 60000

/-- A decoded envelope: the operation and the columns of its row. -/
abbrev Entry := Op × List (String × Json)

def columns (obj : List (String × Json)) : List String := obj.map Prod.fst

def column (obj : List (String × Json)) (name : String) : Option Json := (Json.object obj).get? name

def isIdentifier (s : String) : Bool :=
  s ≠ "" && s.toList.all (fun c => c.isAlphanum || c = '_' || c = '.')

section

variable {Hash : Type}

def validateIdentifier (s : String) : Except (MemoryError Hash) Unit :=
  if s = "" then .error (.backend .emptyIdentifier)
  else if s.toList.all (fun c => c.isAlphanum || c = '_' || c = '.') then .ok ()
  else .error (.backend (.invalidIdentifier s))

/-- A value without both members is a plain row. -/
def peelEnvelope (value : Json) : Except (MemoryError Hash) (Op × Json) :=
  match value.get? "op", value.get? "row" with
  | some op, some row =>
    match op.asStr? with
    | some s =>
      if s = "insert" then .ok (.insert, row)
      else if s = "update" then .ok (.update, row)
      else if s = "delete" then .ok (.delete, row)
      else .error (.backend (.unknownOp s))
    | none => .error (.backend (.nonStringOp op))
  | _, _ => .ok (.insert, value)

def entryOf (pkCol : String) (op : Op) (row : Json) : Except (MemoryError Hash) (Option Entry) :=
  match row.asObject? with
  | none => .error (.backend (.rowNotObject row))
  | some obj =>
    if obj = [] then
      if op = .delete then .error (.backend (.emptyDelete pkCol)) else .ok none
    else .ok (some (op, obj))

def decodeEntry (pkCol : String) (env : Value) : Except (MemoryError Hash) (Option Entry) :=
  peelEnvelope env.json >>= fun parts => entryOf pkCol parts.1 parts.2

/-- What an upsert leaves in a row: the columns it sets replace the old ones, the
key column stays. -/
def merge (pkCol : String) (old : Option Row) (obj : List (String × Json)) : Row :=
  match old with
  | none => fun c => (column obj c).getD .null
  | some row => fun c => if c = pkCol then row c else (column obj c).getD (row c)

def upsertRow (pkCol : String) (obj : List (String × Json)) (t : Table) :
    Except (MemoryError Hash) Table :=
  match column obj pkCol with
  | none => .error .sqlx
  | some key =>
    if key.isNull then .error .sqlx
    else .ok (Function.update t key (some (merge pkCol (t key) obj)))

/-- One `INSERT … ON CONFLICT` statement. It may not meet one key twice. -/
def batchUpsert (pkCol : String) (cols : List String) (rows : List Entry) (t : Table) :
    Except (MemoryError Hash) Table := do
  cols.forM validateIdentifier
  let updateSet := cols.filter (fun c => c ≠ pkCol)
  match cols.find? (fun c => rows.any (fun e => (column e.2 c).isNone)) with
  | some c => throw (.backend (.columnMissing c))
  | none =>
    if updateSet ≠ [] ∧ ¬ (rows.filterMap (fun e => column e.2 pkCol)).Nodup then throw .sqlx
    rows.foldlM (fun t e => upsertRow pkCol e.2 t) t

def deleteKey (pkCol : String) (obj : List (String × Json)) : Except (MemoryError Hash) Json :=
  match column obj pkCol with
  | none => .error (.backend (.absentDeleteKey pkCol))
  | some key => if key.isNull then .error (.backend (.nullDeleteKey pkCol)) else .ok key

/-- One `DELETE … WHERE pk IN` statement. -/
def batchDelete (pkCol : String) (rows : List Entry) (t : Table) : Except (MemoryError Hash) Table := do
  let keys ← rows.mapM (fun e => deleteKey pkCol e.2)
  return fun k => if k ∈ keys then none else t k

variable (P : Platform Hash)

def pkSignature (v : Json) : String := P.toText v

/-- Whether the next entry goes into the batch, with the keys seen once it does. -/
def joins (mode : BatchMode) (firstCols : List String) (pkCol : String) (seen : List String)
    (e : Entry) : Option (List String) :=
  if batchModeOf e.1 ≠ mode then none
  else match mode with
    | .delete => some seen
    | .upsert =>
      if e.2.length ≠ firstCols.length then none
      else if ¬ (columns e.2).all (fun c => c ∈ firstCols) then none
      else match column e.2 pkCol with
        | none => none
        | some v => if pkSignature P v ∈ seen then none else some (pkSignature P v :: seen)

/-- The entries that join, up to the given number, and the others. -/
def takeRun (mode : BatchMode) (firstCols : List String) (pkCol : String) :
    Nat → List String → List Entry → List Entry × List Entry
  | 0, _, es => ([], es)
  | _ + 1, _, [] => ([], [])
  | room + 1, seen, e :: es =>
    match joins P mode firstCols pkCol seen e with
    | none => ([], e :: es)
    | some seen =>
      let (run, rest) := takeRun mode firstCols pkCol room seen es
      (e :: run, rest)

theorem takeRun_append (mode : BatchMode) (firstCols : List String) (pkCol : String) (room : Nat)
    (seen : List String) (es : List Entry) :
    (takeRun P mode firstCols pkCol room seen es).1 ++
      (takeRun P mode firstCols pkCol room seen es).2 = es := by
  induction es generalizing room seen with
  | nil => cases room <;> rfl
  | cons e es ih => cases room with
    | zero => rfl
    | succ room =>
      unfold takeRun
      split
      · rfl
      · exact congrArg (e :: ·) (ih _ _)

/-- The batch that starts with an entry: its other members, and what is left. -/
def nextBatch (pkCol : String) (first : Entry) (es : List Entry) : List Entry × List Entry :=
  let mode := batchModeOf first.1
  let firstCols := columns first.2
  let perRowParams := match mode with
    | .upsert => firstCols.length
    | .delete => 1
  let cap := max (min batchMaxRows (batchMaxParams / max perRowParams 1)) 1
  let seen := match mode with
    | .upsert => ((column first.2 pkCol).map (pkSignature P)).toList
    | .delete => []
  takeRun P mode firstCols pkCol (cap - 1) seen es

theorem nextBatch_append (pkCol : String) (first : Entry) (es : List Entry) :
    (nextBatch P pkCol first es).1 ++ (nextBatch P pkCol first es).2 = es :=
  takeRun_append P _ _ _ _ _ es

def applyBatch (pkCol : String) (first : Entry) (others : List Entry) (t : Table) :
    Except (MemoryError Hash) Table :=
  match batchModeOf first.1 with
  | .upsert => batchUpsert pkCol (columns first.2) (first :: others) t
  | .delete => batchDelete pkCol (first :: others) t

def applyBatches (pkCol : String) : List Entry → Table → Except (MemoryError Hash) Table
  | [], t => .ok t
  | first :: es, t => do
    let t ← applyBatch pkCol first (nextBatch P pkCol first es).1 t
    applyBatches pkCol (nextBatch P pkCol first es).2 t
  termination_by es => es.length
  decreasing_by
    have split := congrArg List.length (nextBatch_append P pkCol first es)
    simp only [List.length_append] at split
    simp only [List.length_cons]
    omega

/-- Every envelope is decoded before the first statement. -/
def applySegmentRows (pkCol : String) (rows : List Value) (t : Table) :
    Except (MemoryError Hash) Table :=
  if rows = [] then .ok t
  else do
    validateIdentifier pkCol
    let entries ← rows.mapM (decodeEntry pkCol)
    applyBatches P pkCol (entries.filterMap id) t

variable {σ : Type} (store : RawStore Hash σ)

def loadSegment (s : σ) (hash : Hash) : Except (MemoryError Hash) Segment :=
  match store.getRaw s hash with
  | .error e => .error (.backend (.loadingSegment hash e))
  | .ok bytes =>
    match Segment.fromSlice P bytes with
    | none => .error (.backend (.decodingSegment hash))
    | some segment => .ok segment

/-- `TRUNCATE`, then the segments of the table in manifest order. The segments of
the whole manifest have been loaded before. -/
def restoreTable (segments : List (SegmentRef Hash × Segment)) (table : TrackedTable) :
    Except (MemoryError Hash) Table := do
  validateIdentifier table.name
  validateIdentifier table.pk
  (segments.filter (fun e => e.1.table = table.name)).foldlM
    (fun t e => applySegmentRows P table.pk e.2.rows t) (fun _ => none)

def loadSegments (s : σ) (manifest : SegmentManifest Hash) :
    Except (MemoryError Hash) (List (SegmentRef Hash × Segment)) :=
  manifest.entries.mapM (fun e => do return (e, ← loadSegment P store s e.segment))

end

end Restore

end GitAgentic
