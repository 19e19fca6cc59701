import GitAgentic.Core.Approval
import GitAgentic.Core.Staging
import GitAgentic.Memory.Streamer

/-! The daemon: its configuration, the state its requests work on, and the memory backend
behind its trait. -/
namespace GitAgentic

/-- The destructive-rollback gate turned a request away. -/
inductive ApprovalError where
  | keyNotConfigured
  | noPeerUid
  | tokenRequired
  | rejected (cause : ApprovalRejection)
  deriving DecidableEq

/-- `anyhow::Error`: a typed cause or a text, under the contexts added on the way up. -/
inductive DaemonError (Hash : Type) where
  | core (cause : Error Hash)
  | memory (cause : MemoryError Hash)
  | approval (cause : ApprovalError)
  | manifest (cause : SegmentManifest.Invalid)
  | io
  | text (message : String)
  | context (message : String) (cause : DaemonError Hash)
  deriving DecidableEq

structure MigrationStep where
  name : String
  sql : String
  deriving DecidableEq

/-- What a backend does: it works on a state of its own, and the object store serves it
through raw puts of segments and raw gets. -/
inductive AdapterProgram (Hash M α : Type) where
  | done (result : Except (MemoryError Hash) α)
  | act (step : M → M) (next : M → AdapterProgram Hash M α) (fault : AdapterProgram Hash M α)
  | putSegment (segment : Segment) (next : Except (Error Hash) Hash → AdapterProgram Hash M α)
  | getSegment (hash : Hash) (next : Except (Error Hash) Bytes → AdapterProgram Hash M α)

/-- `MemoryAdapter`. The two queries read the database and change nothing; `resume` is what
dropping the restore guard does. -/
structure MemoryAdapter (Hash M : Type) where
  snapshot : AdapterProgram Hash M (SnapshotHandle Hash)
  currentSchemaVersion : M → Except (MemoryError Hash) String
  migrationsAfter : String → M → Except (MemoryError Hash) (List String)
  beginRestore : AdapterProgram Hash M Unit
  restoreWithGuard : SnapshotHandle Hash → AdapterProgram Hash M Unit
  resume : M → M
  applyReverseMigrations : List MigrationStep → AdapterProgram Hash M Unit

structure McpServerSpec where
  name : String
  url : String

/-- The parts of `DaemonState` that no request changes. -/
structure DaemonConfig (Hash M : Type) where
  store : FsObjectStore Hash
  memory : Option (MemoryAdapter Hash M)
  mcpServers : List McpServerSpec
  approvalKey : Option ApprovalKey
  exemptEntropyPrefixes : List String
  repoRoot : String
  agenticDir : String

/-- The repository, the files of the working directory, and the state of the memory
backend. `reversed` lists the reverse migrations handed to the backend so far; no code
reads it. -/
structure Daemon (M : Type) where
  repo : Repository
  work : FileTree Bytes
  memory : M
  reversed : List MigrationStep

abbrev DaemonProgram (Hash M α : Type) := Program (Daemon M) (DaemonError Hash) α

section

variable {Hash M ε α : Type}

def withContext (message : String) (p : DaemonProgram Hash M α) : DaemonProgram Hash M α :=
  p.mapError (DaemonError.context message)

def onRepository (p : Program Repository (Error Hash) α) : DaemonProgram Hash M α :=
  (p.focus Daemon.repo (fun repo d => { d with repo })).mapError .core

def onDaemonRefs (p : Refs.RefsProgram Hash α) : DaemonProgram Hash M α :=
  onRepository (Repository.onRefs p)

def onStore (p : Program Files ε α) : Program (Daemon M) ε α :=
  p.focus (fun d => d.repo.objects) (fun objects d => { d with repo := { d.repo with objects } })

def onDaemonObjects (p : Program Files (Error Hash) α) : DaemonProgram Hash M α :=
  (onStore p).mapError .core

def onWork (p : Program (FileTree Bytes) (DaemonError Hash) α) : DaemonProgram Hash M α :=
  p.focus Daemon.work (fun work d => { d with work })

def readObjects (f : Files → Except (Error Hash) α) : DaemonProgram Hash M α :=
  onDaemonObjects (Program.read f .io)

def readMemory (f : M → Except (MemoryError Hash) α) : DaemonProgram Hash M α :=
  Program.read (fun d => (f d.memory).mapError .memory) (.memory .sqlx)

theorem onDaemonRefs_still {p : Refs.RefsProgram Hash α} (still : p.Still) :
    (onDaemonRefs p : DaemonProgram Hash M α).Still :=
  ((still.focus (fun _ => rfl)).focus (fun _ => rfl)).mapError

theorem readObjects_still (f : Files → Except (Error Hash) α) :
    (readObjects f : DaemonProgram Hash M α).Still := by
  unfold readObjects onDaemonObjects onStore
  exact ((Program.Still.read f .io).focus (fun _ => rfl)).mapError

def AdapterProgram.toProgram (P : Platform Hash) (S : FsObjectStore Hash) [DecidableEq Hash] :
    AdapterProgram Hash M α → DaemonProgram Hash M α
  | .done result => .done (result.mapError .memory)
  | .act step next fault =>
    .op (fun d => { d with memory := step d.memory }) (fun d => (next d.memory).toProgram P S)
      (fault.toProgram P S)
  | .putSegment segment next =>
    (onStore (S.putRawProgram P .segment (segment.toCanonicalBytes P)).attempt).bind
      (fun stored => (next stored).toProgram P S)
  | .getSegment hash next =>
    (onStore (Program.read (fun files => getRaw P files hash) .io).attempt).bind
      (fun found => (next found).toProgram P S)

/-- `{:?}` of a string. Characters beyond ASCII are taken to be printable. -/
def debugText (s : String) : String :=
  "\"" ++ String.ofList (s.toList.flatMap (fun c =>
    if c = '\t' then ['\\', 't']
    else if c = '\r' then ['\\', 'r']
    else if c = '\n' then ['\\', 'n']
    else if c.toNat = 0 then ['\\', '0']
    else if c = '"' ∨ c = '\\' then ['\\', c]
    else if c.toNat < 32 ∨ c.toNat = 127 then
      "\\u\x7b".toList ++ Nat.toDigits 16 c.toNat ++ "\x7d".toList
    else [c])) ++ "\""

end

end GitAgentic
