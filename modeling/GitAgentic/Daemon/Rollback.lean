import GitAgentic.Daemon.Migrate
import GitAgentic.Daemon.Writeback

/-! A rollback: the gate, reverse migrations, memory, prompts, and a commit on top of the
branch that records the target's state. -/
namespace GitAgentic

structure RollbackArgs where
  target : String
  dryRun : Bool
  acceptDataLoss : Bool
  approvalToken : Option String

structure RollbackOutput where
  plannedSteps : List String
  executed : Bool
  newHeadHash : Option String
  deriving DecidableEq

namespace Rollback

variable {Hash M : Type} [DecidableEq Hash] (P : Platform Hash) (hmac : Hmac)
  (config : DaemonConfig Hash M)

def approvalGate (targetHash : Hash) (peerUid : Option UInt32) (approvalToken : Option String)
    (now : UInt64) : Except ApprovalError Unit :=
  match config.approvalKey, peerUid, approvalToken with
  | none, _, _ => .error .keyNotConfigured
  | some _, none, _ => .error .noPeerUid
  | some _, some _, none => .error .tokenRequired
  | some key, some uid, some token =>
    (verifyToken hmac key (P.toHex targetHash) uid token now).mapError .rejected

def checkApproval (args : RollbackArgs) (targetHash : Hash) (peerUid : Option UInt32)
    (now : UInt64) : Except (DaemonError Hash) Unit :=
  if args.acceptDataLoss then
    (approvalGate P hmac config targetHash peerUid args.approvalToken now).mapError .approval
  else .ok ()

def validateTargetShape (target : Commit Hash) (targetHash : Hash) :
    Except (DaemonError Hash) Unit :=
  if target.memorySnapshot.isSome ∧ target.schemaVersion.isNone then
    .error (.text ("target commit " ++ P.short targetHash ++ " has memory_snapshot but no " ++
      "schema_version; this state should not be reachable through normal commit-write paths " ++
      "(see ADR-0002 and docs/plans/a8-reverse-migration/source.md §Q2). Refusing rollback. " ++
      "If you reached this through a custom SDK or a legacy commit, please file a v1.1 issue."))
  else .ok ()

def resolveTarget (target : String) : DaemonProgram Hash M Hash := do
  match ← onDaemonRefs (Refs.resolve P target) with
  | some hash => return hash
  | none => Program.fail (.text ("ref not found: " ++ target))

def headBranch : DaemonProgram Hash M String := do
  match ← onDaemonRefs (Refs.readHead P) with
  | some (.branch b) => return b
  | some (.detached _) =>
    Program.fail (.text "rollback from a detached HEAD is not supported (Chunk C+1)")
  | none => Program.fail (.text "repo has no HEAD; commit something before rolling back")

def onAgentic {α : Type} (p : Program (FileTree TextFile) (DaemonError Hash) α) :
    DaemonProgram Hash M α :=
  p.focus (fun d => d.repo.agentic) (fun agentic d => { d with repo := { d.repo with agentic } })

def applySteps (adapter : MemoryAdapter Hash M) (steps : List MigrationStep) :
    DaemonProgram Hash M Unit :=
  withContext "running reverse migrations" (.op (fun d => { d with reversed := d.reversed ++ steps })
    (fun _ => (adapter.applyReverseMigrations steps).toProgram P config.store)
    (.fail (.memory .sqlx)))

def reverseMigrations (adapter : MemoryAdapter Hash M) (args : RollbackArgs) (targetSchema : String) :
    DaemonProgram Hash M (List String) := do
  let liveSchema ← withContext "reading live schema version"
    (readMemory adapter.currentSchemaVersion)
  if liveSchema = targetSchema then
    return ["schema already at " ++ targetSchema ++ " — no migrations needed"]
  else
    let names ← withContext "querying pending reverse migrations"
      (readMemory (adapter.migrationsAfter targetSchema))
    let steps ← withContext "loading reverse migration files"
      (onAgentic (Migrate.loadSteps config.agenticDir names args.acceptDataLoss))
    if args.dryRun then pure () else applySteps P config adapter steps
    return ["reverse schema migrations: " ++ liveSchema ++ " → " ++ targetSchema]

/-- The guard is dropped whether the restore goes well or not. -/
def restoreMemory (adapter : MemoryAdapter Hash M) (manifestHash : Hash) (targetSchema : String) :
    DaemonProgram Hash M Unit := do
  let manifest ← loadManifest P manifestHash
  withContext "pausing data capture for restore window"
    (adapter.beginRestore.toProgram P config.store)
  let handle : SnapshotHandle Hash := { manifest, schemaVersion := targetSchema }
  let restored : Except (DaemonError Hash) Unit ←
    (withContext "restoring memory snapshot"
      ((adapter.restoreWithGuard handle).toProgram P config.store)).attempt
  .op (fun d => { d with memory := adapter.resume d.memory }) (fun _ => .done restored)
    (.done restored)

/-- Schema migrations and memory, with what the plan says about them. -/
def memoryStep (args : RollbackArgs) (target : Commit Hash) : DaemonProgram Hash M (List String) := do
  match target.schemaVersion with
  | none =>
    return ["no schema_version in target — skipping schema migration and memory restore"]
  | some targetSchema =>
    match config.memory with
    | none => Program.fail (.text
        "target commit has a schema_version but no memory backend is attached")
    | some adapter =>
      let planned ← reverseMigrations P config adapter args targetSchema
      match target.memorySnapshot with
      | none => return planned ++ ["no memory snapshot in target — skipping memory data restore"]
      | some manifestHash =>
        if args.dryRun then pure () else restoreMemory P config adapter manifestHash targetSchema
        return planned ++ ["restore memory from manifest " ++ P.short manifestHash]

def promptsStep (args : RollbackArgs) (target : Commit Hash) : DaemonProgram Hash M (List String) := do
  match target.prompts with
  | none => return ["no prompts in target — skipping prompts rewrite"]
  | some promptsHash =>
    if args.dryRun then pure () else restorePrompts config.repoRoot P promptsHash
    return ["rewrite " ++ config.repoRoot ++ "/prompts from target prompts tree " ++
      P.short promptsHash]

def followUps (target : Commit Hash) : List String :=
  (if target.tools.isSome then
    ["tools manifest present in target; pinning into .agentic/config.toml is a follow-up"]
  else []) ++
  if target.model.isSome then
    ["model version captured in target — operator must redeploy if it changed"]
  else []

/-- The inputs of the forward record: the target's dimensions on the current tip. -/
def recordInputs (targetHash : Hash) (target : Commit Hash) (currentTip : Option Hash)
    (peerUid : Option UInt32) (prompts tools : BTreeMap String Bytes) (model : Option String) :
    CommitInputs Hash where
  author := "agentic-rollback"
  message := "Rollback to " ++ P.short targetHash
  parent := currentTip
  codeSha := target.codeSha
  prompts := prompts
  tools := tools
  model := model
  memorySnapshot := target.memorySnapshot
  schemaVersion := target.schemaVersion
  intent := none
  plan := none
  transcript := none
  evals := none
  costCents := 0
  peerUid := peerUid
  exemptEntropyPrefixes := config.exemptEntropyPrefixes

def forwardRecord (targetHash : Hash) (target : Commit Hash) (branch : String)
    (currentTip : Option Hash) (peerUid : Option UInt32) (now : Int) :
    DaemonProgram Hash M (CommitOutputs Hash) := do
  let prompts ← readTextBlobs P target.prompts
  let tools ← readTextBlobs P target.tools
  let model ← readModelText P target
  withContext "forward-recording rollback commit" (onRepository
    (stageAndCommitWithNow P config.store branch
      (recordInputs P config targetHash target currentTip peerUid prompts tools model) now))

def planOf (targetHash : Hash) (target : Commit Hash) (currentTip : Option Hash) : List String :=
  ("target commit " ++ P.short targetHash ++ " (" ++ target.message ++ ")") ::
    (currentTip.map (fun c =>
      "current branch tip " ++ P.short c ++ " → forward-record over it")).toList

def execute (args : RollbackArgs) (peerUid : Option UInt32) (nowSeconds : UInt64) (now : Int) :
    DaemonProgram Hash M RollbackOutput := do
  let targetHash ← resolveTarget P args.target
  Program.ofExcept (checkApproval P hmac config args targetHash peerUid nowSeconds)
  let target ← loadCommit P targetHash
  Program.ofExcept (validateTargetShape P target targetHash)
  let branch ← headBranch P
  let currentTip ← onDaemonRefs (Refs.readBranch P branch)
  let memoryPlan ← memoryStep P config args target
  let promptsPlan ← promptsStep P config args target
  let plan := planOf P targetHash target currentTip ++ memoryPlan ++ promptsPlan ++ followUps target
  if args.dryRun then return { plannedSteps := plan, executed := false, newHeadHash := none }
  else
    let out ← forwardRecord P config targetHash target branch currentTip peerUid now
    return {
      plannedSteps := plan ++ ["forward-recorded rollback as " ++ P.short out.commitHash ++ " on " ++
        out.branch]
      executed := true
      newHeadHash := some (P.toHex out.commitHash) }

end Rollback

end GitAgentic
