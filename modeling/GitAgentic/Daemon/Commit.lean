import GitAgentic.Daemon.State

/-! The phases of a commit: memory snapshot, tool manifests, staging, and `HEAD` last. -/
namespace GitAgentic

structure CommitInput where
  message : String
  author : Option String
  codeSha : Option String
  branch : Option String
  prompts : BTreeMap String Bytes
  mcpServers : List String
  model : Option String
  noMemory : Bool

structure CommitOutput where
  commitHash : String
  branch : String
  deriving DecidableEq

namespace Commit

variable {Hash M : Type} [DecidableEq Hash] (P : Platform Hash) (config : DaemonConfig Hash M)

/-- Without a backend there is neither a snapshot nor a schema version. -/
def snapshotMemory (noMemory : Bool) : DaemonProgram Hash M (Option Hash × Option String) :=
  if noMemory then return (none, none)
  else match config.memory with
    | none => return (none, none)
    | some adapter => do
      let handle ← withContext "taking memory snapshot" (adapter.snapshot.toProgram P config.store)
      let manifestHash ← withContext "persisting segment manifest" (onDaemonObjects
        (config.store.putRawProgram P .tree (handle.manifest.toCanonicalBytes P)))
      return (some manifestHash, some handle.schemaVersion)

/-- The manifests the servers answered with, keyed by the configured names. One failure
fails all. -/
def fingerprintTools (servers : List McpServerSpec)
    (fingerprints : List (Except (DaemonError Hash) Bytes)) :
    Except (DaemonError Hash) (BTreeMap String Bytes) :=
  if servers = [] then .ok BTreeMap.empty
  else if fingerprints.length ≠ servers.length then
    .error (.text ("fingerprint_all returned " ++ decimal fingerprints.length ++
      " result(s) for " ++ decimal servers.length ++ " configured MCP server(s); a non-1:1 " ++
      "contract would silently misattribute fingerprints"))
  else
    (servers.zip fingerprints).foldlM (fun tools e => do
      let manifest ← e.2.mapError
        (DaemonError.context ("fingerprinting MCP server " ++ e.1.name))
      return tools.insert e.1.name manifest) BTreeMap.empty

def assembleInputs (input : CommitInput) (parent memorySnapshot : Option Hash)
    (schemaVersion : Option String) (tools : BTreeMap String Bytes) (peerUid : Option UInt32)
    (exemptEntropyPrefixes : List String) : CommitInputs Hash where
  author := input.author.getD "unknown"
  message := input.message
  parent := parent
  codeSha := input.codeSha
  prompts := input.prompts
  tools := tools
  model := input.model
  memorySnapshot := memorySnapshot
  schemaVersion := schemaVersion
  intent := none
  plan := none
  transcript := none
  evals := none
  costCents := 0
  peerUid := peerUid
  exemptEntropyPrefixes := exemptEntropyPrefixes

/-- A failed write of `HEAD` is logged only. -/
def publishHead (branch : String) (needsHeadWrite : Bool) : DaemonProgram Hash M Unit :=
  if needsHeadWrite then do
    let _ ← (onDaemonRefs (Refs.writeHeadSymbolic branch) : DaemonProgram Hash M Unit).attempt
    return ()
  else return ()

def branchOf (input : CommitInput) (head : Option (HeadRef Hash)) : String :=
  input.branch.getD (match head with
    | some (.branch b) => b
    | _ => "main")

omit [DecidableEq Hash] in
theorem branchOf_named {input : CommitInput} {branch : String} (named : input.branch = some branch)
    (head : Option (HeadRef Hash)) : branchOf input head = branch := by
  unfold branchOf
  rw [named, Option.getD_some]

def executeWithNow (input : CommitInput) (peerUid : Option UInt32)
    (fingerprints : List (Except (DaemonError Hash) Bytes)) (now : Int) :
    DaemonProgram Hash M CommitOutput := do
  let head ← withContext "reading HEAD ref before commit" (onDaemonRefs (Refs.readHead P))
  let branch := branchOf input head
  let parent ← withContext ("reading branch ref " ++ debugText branch ++ " before commit")
    (onDaemonRefs (Refs.readBranch P branch))
  let (memorySnapshot, schemaVersion) ← snapshotMemory P config input.noMemory
  let tools ← Program.ofExcept (fingerprintTools config.mcpServers fingerprints)
  let inputs := assembleInputs input parent memorySnapshot schemaVersion tools peerUid
    config.exemptEntropyPrefixes
  let out ← withContext ("2PC staging on branch " ++ debugText branch)
    (onRepository (stageAndCommitWithNow P config.store branch inputs now))
  publishHead branch head.isNone
  return { commitHash := P.toHex out.commitHash, branch := out.branch }

end Commit

end GitAgentic
