import GitAgentic.Core.Store
import GitAgentic.Memory.Segment

/-! The streamer: one task that owns a head per tracked table. An accepted event is
appended to the active segment of its table; a segment is sealed into the object
store when it is large enough, and all of them when a snapshot is taken. -/
namespace GitAgentic

/-- The messages of the catch-all error, one constructor for each place that builds one. -/
inductive BackendError (Hash : Type) where
  | nullKey (table pkCol : String)
  | absentKey (table pkCol : String)
  | nullPrimaryKey (pk table : String)
  | absentPrimaryKey (pk table : String)
  | persistingSegment (cause : Error Hash)
  | loadingSegment (segment : Hash) (cause : Error Hash)
  | decodingSegment (segment : Hash)
  | emptyIdentifier
  | invalidIdentifier (name : String)
  | unknownOp (op : String)
  | nonStringOp (op : Json)
  | rowNotObject (row : Json)
  | emptyDelete (pkCol : String)
  | nullDeleteKey (pkCol : String)
  | absentDeleteKey (pkCol : String)
  | columnMissing (col : String)
  | undecodable
  deriving DecidableEq

inductive MemoryError (Hash : Type) where
  | backend (cause : BackendError Hash)
  | schemaMismatch (live target : String)
  | missingReverseMigration (name : String)
  | streamerShutdown
  | core (cause : Error Hash)
  | sqlx
  | other (message : String)
  deriving DecidableEq

inductive Op where
  | insert | update | delete
  deriving DecidableEq, Repr

def Op.name : Op → String
  | .insert => "insert"
  | .update => "update"
  | .delete => "delete"

structure ChangeEvent where
  table : String
  row : Value
  op : Op
  schemaVersion : String
  deriving DecidableEq

structure TrackedTable where
  name : String
  pk : String
  deriving DecidableEq, Repr

def blankSegment (table schemaVersion : String) : Segment where
  table := table
  schemaVersion := schemaVersion
  pkLo := .null
  pkHi := .null
  rowCount := 0
  rows := []
  embeddings := []
  metadata := .empty

structure TableHead (Hash : Type) where
  table : String
  active : Segment
  sealed : List (SegmentRef Hash)
  sealThresholdBytes : Nat

section

variable {Hash σ : Type} (P : Platform Hash) (store : RawStore Hash σ)

def ChangeEvent.envelope (ev : ChangeEvent) : Value := Value.envelope ev.op.name ev.row

namespace TableHead

def new (table schemaVersion : String) (sealThresholdBytes : Nat) : TableHead Hash where
  table := table
  active := blankSegment table schemaVersion
  sealed := []
  sealThresholdBytes := sealThresholdBytes

def adoptVersion (active : Segment) (schemaVersion : String) : Segment :=
  if active.schemaVersion ≠ schemaVersion ∧ active.rows = [] then { active with schemaVersion }
  else active

@[simp] theorem adoptVersion_table (active : Segment) (schemaVersion : String) :
    (adoptVersion active schemaVersion).table = active.table := by
  unfold adoptVersion
  split <;> rfl

@[simp] theorem adoptVersion_rows (active : Segment) (schemaVersion : String) :
    (adoptVersion active schemaVersion).rows = active.rows := by
  unfold adoptVersion
  split <;> rfl

/-- The version is taken over before the key is checked. -/
def apply (head : TableHead Hash) (ev : ChangeEvent) (pkCol : String) :
    Except (MemoryError Hash) Unit × TableHead Hash :=
  let active := adoptVersion head.active ev.schemaVersion
  match ev.row.get? pkCol with
  | none => (.error (.backend (.absentKey head.table pkCol)), { head with active })
  | some pk =>
    if pk.isNull then (.error (.backend (.nullKey head.table pkCol)), { head with active })
    else
      let rows := active.rows ++ [ev.envelope]
      let active :=
        { active with
          pkLo := if active.rows = [] then pk else active.pkLo
          pkHi := pk
          rows
          rowCount := rows.length.toUInt64 }
      (.ok (), { head with active })

def sealIfNonempty (head : TableHead Hash) (s : σ) :
    Except (MemoryError Hash) (Option (SegmentRef Hash)) × TableHead Hash × σ :=
  if head.active.rows = [] then (.ok none, head, s)
  else
    match store.putRaw .segment (head.active.toCanonicalBytes P) s with
    | (.error e, s) => (.error (.backend (.persistingSegment e)), head, s)
    | (.ok hash, s) =>
      let r : SegmentRef Hash :=
        { table := head.active.table
          pkLo := head.active.pkLo
          pkHi := head.active.pkHi
          segment := hash
          rowCount := head.active.rowCount }
      (.ok (some r),
        { head with
          sealed := head.sealed ++ [r]
          active := blankSegment head.table head.active.schemaVersion }, s)

def maybeSealOnThreshold (head : TableHead Hash) (s : σ) :
    Except (MemoryError Hash) Unit × TableHead Hash × σ :=
  if head.active.canonicalSize P ≥ head.sealThresholdBytes then
    let (result, head, s) := head.sealIfNonempty P store s
    (result.map (fun _ => ()), head, s)
  else (.ok (), head, s)

end TableHead

structure Streamer (Hash : Type) where
  heads : BTreeMap String (TableHead Hash)
  pkFor : BTreeMap String String

inductive Cmd (Hash : Type) where
  | event (ev : ChangeEvent)
  | seedSealed (refs : List (SegmentRef Hash))
  | takeSnapshot (schemaVersion : String)

/-- What a command leads to: a log line, or the reply of a snapshot. An accepted
event may be followed by a failure to seal, which is only logged. -/
inductive Outcome (Hash : Type) where
  | ignored
  | dropped (cause : MemoryError Hash)
  | accepted (sealing : Except (MemoryError Hash) Unit)
  | seeded
  | snapshot (result : Except (MemoryError Hash) (SegmentManifest Hash))

namespace Streamer

def spawn (tables : List TrackedTable) (sealThresholdBytes : Nat) (initialSchemaVersion : String) :
    Streamer Hash where
  heads := BTreeMap.ofList
    (tables.map (fun t => (t.name, TableHead.new t.name initialSchemaVersion sealThresholdBytes)))
  pkFor := BTreeMap.ofList (tables.map (fun t => (t.name, t.pk)))

/-- Heads are sealed in the order of their names, up to the first failure. -/
def sealAll : List (String × TableHead Hash) → σ →
    Except (MemoryError Hash) Unit × List (String × TableHead Hash) × σ
  | [], s => (.ok (), [], s)
  | (name, head) :: rest, s =>
    match head.sealIfNonempty P store s with
    | (.error e, head, s) => (.error e, (name, head) :: rest, s)
    | (.ok _, head, s) =>
      let (result, rest, s) := sealAll rest s
      (result, (name, head) :: rest, s)

theorem sealAll_names (heads : List (String × TableHead Hash)) (s : σ) :
    (sealAll P store heads s).2.1.map Prod.fst = heads.map Prod.fst := by
  induction heads generalizing s with
  | nil => rfl
  | cons entry rest ih =>
    obtain ⟨name, head⟩ := entry
    unfold sealAll
    split
    · rfl
    · exact congrArg (name :: ·) (ih _)

def onEvent (st : Streamer Hash) (ev : ChangeEvent) (s : σ) : Outcome Hash × Streamer Hash × σ :=
  match st.heads.get? ev.table with
  | none => (.ignored, st, s)
  | some head =>
    match st.pkFor.get? ev.table with
    | none => (.ignored, st, s)
    | some pk =>
      match head.apply ev pk with
      | (.error e, head) => (.dropped e, { st with heads := st.heads.insert ev.table head }, s)
      | (.ok _, head) =>
        let (result, head, s) := head.maybeSealOnThreshold P store s
        (.accepted result, { st with heads := st.heads.insert ev.table head }, s)

def seedOne (st : Streamer Hash) (r : SegmentRef Hash) : Streamer Hash :=
  match st.heads.get? r.table with
  | none => st
  | some head =>
    { st with heads := st.heads.insert r.table { head with sealed := head.sealed ++ [r] } }

def manifestOf (schemaVersion : String) (heads : List (String × TableHead Hash)) :
    SegmentManifest Hash :=
  (heads.flatMap (fun h => h.2.sealed)).foldl (SegmentManifest.push P) (.new schemaVersion)

def onSnapshot (st : Streamer Hash) (schemaVersion : String) (s : σ) :
    Outcome Hash × Streamer Hash × σ :=
  let heads := st.heads.setValues (sealAll P store st.heads.entries s).2.1
    (sealAll_names P store st.heads.entries s)
  let result := (sealAll P store st.heads.entries s).1.map
    (fun _ => manifestOf P schemaVersion heads.entries)
  (.snapshot result, { st with heads }, (sealAll P store st.heads.entries s).2.2)

def step (st : Streamer Hash) (cmd : Cmd Hash) (s : σ) : Outcome Hash × Streamer Hash × σ :=
  match cmd with
  | .event ev => st.onEvent P store ev s
  | .seedSealed refs => (.seeded, refs.foldl seedOne st, s)
  | .takeSnapshot schemaVersion => st.onSnapshot P store schemaVersion s

/-- The outcomes of a sequence of commands, and the state at its end. -/
def run : List (Cmd Hash) → Streamer Hash → σ → List (Outcome Hash) × Streamer Hash × σ
  | [], st, s => ([], st, s)
  | cmd :: cmds, st, s =>
    let (outcome, st, s) := st.step P store cmd s
    let (outcomes, st, s) := run cmds st s
    (outcome :: outcomes, st, s)

end Streamer

end

end GitAgentic
