import GitAgentic.Daemon.Replies

/-! The LangGraph checkpointer of the Python client. The last checkpoint of a thread lies in
one file of the working directory, and every checkpoint is a commit on the thread's branch. -/
namespace GitAgentic

/-- The `configurable` part of a config; `none` where a key is not there. -/
structure RunnableConfig where
  threadId : Option String
  checkpointNs : Option String
  checkpointId : Option String
  deriving DecidableEq

structure CheckpointTuple (C D : Type) where
  config : RunnableConfig
  checkpoint : C
  metadata : D
  deriving DecidableEq

/-- What a call raises. `malformed` stands for every error of a document or a reply that is
not of its form; an envelope of another version keeps what is shown of it. -/
inductive SdkError where
  | valueError (message : String)
  | unsupportedVersion (found : Option Json)
  | notImplemented (message : String)
  | os
  | malformed
  | agentic (reply : ErrorReply)
  deriving DecidableEq

/-- `JsonPlusSerializer` for one type of objects. -/
structure Serde (α : Type) where
  dumpsTyped : α → String × Bytes
  loadsTyped : String × Bytes → Option α
  loads_dumps : ∀ a, loadsTyped (dumpsTyped a) = some a

/-- Python's `json`. No key occurs twice in a dictionary. -/
structure JsonModule where
  dumps : Json → String
  loads : String → Option Json
  loads_dumps : ∀ j, j.DistinctKeys → loads (dumps j) = some j

/-- What the checkpointer uses: the digest of 8 bytes, `json`, base64, the serialiser, and the
words for the step and the source that the metadata name. -/
structure AgenticCheckpointer (C D : Type) where
  blake2b : Bytes → Vector UInt8 8
  json : JsonModule
  codec : WireCodec
  checkpoints : Serde C
  metadatas : Serde D
  step : D → String
  source : D → String

def requireThreadId (config : RunnableConfig) : Except SdkError String :=
  match config.threadId with
  | some thread => .ok thread
  | none => .error (.valueError "AgenticCheckpointer requires config['configurable']['thread_id']")

/-- `_ns` -/
def RunnableConfig.ns (config : RunnableConfig) : String := config.checkpointNs.getD ""

/- The working directory. -/

abbrev MirrorProgram (α : Type) := Program (FileTree Bytes) SdkError α

def mkstemp (path : TreePath) : MirrorProgram Unit :=
  FileTree.perform .os (fun t => if t.node? path = none then t.write path [] else none)

/-- The name beside a file that `mkstemp` has chosen. -/
def besidePath (path : TreePath) (suffix : String) : TreePath :=
  path.dropLast ++ [path.getLast?.getD "" ++ "." ++ suffix]

def writeAndReplace (tmp path : TreePath) (body : String) : MirrorProgram Unit := do
  FileTree.perform .os (fun t => t.write tmp (utf8 body.toList))
  FileTree.perform .os (fun t => t.rename tmp path)

/-- What fails after the temporary file is made takes it away again. -/
def atomicWriteText (path : TreePath) (body suffix : String) : MirrorProgram Unit := do
  FileTree.createDirAll .os [] path.dropLast
  let tmp := besidePath path suffix
  mkstemp tmp
  match ← (writeAndReplace tmp path body).attempt with
  | .ok _ => return ()
  | .error e => do
    let _ ← (FileTree.perform SdkError.os (fun t : FileTree Bytes => t.removeFile tmp) :
      MirrorProgram Unit).attempt
    Program.fail e

/-- Text is read as UTF-8; a document of `json` has no line break that reading could change. -/
def readText (t : FileTree Bytes) (path : TreePath) : Except SdkError String :=
  match t.file? path with
  | none => .error .os
  | some bytes =>
    match fromUtf8 bytes with
    | some text => .ok text
    | none => .error .malformed

namespace AgenticCheckpointer

variable {C D : Type} (cp : AgenticCheckpointer C D)

def hexdigest (thread : String) : String :=
  String.ofList ((cp.blake2b (utf8 thread.toList)).toList.flatMap Platform.hexByte)

def branchForThread (thread : String) : String := "langgraph/" ++ cp.hexdigest thread

def checkpointBlobPath (thread : String) : String :=
  "__langgraph__/" ++ cp.hexdigest thread ++ "/checkpoint.json"

def onDisk (thread : String) : TreePath := "prompts" :: splitSlash (cp.checkpointBlobPath thread)

/- The envelope. -/

def typedJson (typed : String × Bytes) : Json :=
  .object [("type", .string typed.1), ("data_b64", .string (cp.codec.encodeBase64 typed.2))]

def serialiseEnvelope (checkpoint : C) (metadata : D) (thread : String) : Json :=
  .object [("v", .number (.posInt 1)), ("thread_id", .string thread),
    ("checkpoint", cp.typedJson (cp.checkpoints.dumpsTyped checkpoint)),
    ("metadata", cp.typedJson (cp.metadatas.dumpsTyped metadata))]

/-- `== 1`, which `1.0` and `True` are as well. -/
def isVersion : Json → Bool
  | .number (.posInt n) => n = 1
  | .number (.float bits) => bits = 0x3FF0000000000000
  | .bool b => b
  | _ => false

def loadTyped {α : Type} (serde : Serde α) (envelope : Json) (name : String) : Except SdkError α :=
  let loaded : Option α := do
    let typed ← envelope.get? name
    let tag ← (← typed.get? "type").asStr?
    let bytes ← cp.codec.decodeBase64 (← (← typed.get? "data_b64").asStr?)
    serde.loadsTyped (tag, bytes)
  match loaded with
  | some a => .ok a
  | none => .error .malformed

def deserialiseEnvelope (envelope : Json) : Except SdkError (C × D) :=
  match envelope with
  | .object _ =>
    if (envelope.get? "v").any isVersion then do
      let checkpoint ← cp.loadTyped cp.checkpoints envelope "checkpoint"
      let metadata ← cp.loadTyped cp.metadatas envelope "metadata"
      return (checkpoint, metadata)
    else .error (.unsupportedVersion (envelope.get? "v"))
  | _ => .error .malformed

/- The client. -/

abbrev SdkProgram (M α : Type) := Program (Daemon M) SdkError α

section

variable {Hash M : Type} [DecidableEq Hash] (P : Platform Hash) (hmac : Hmac)
  (config : DaemonConfig Hash M) (words : Words)

/-- One request and its reply; an error that is replied is raised. -/
def request (moment : Moment Hash) (payload : Wire.Request) : SdkProgram M Response := do
  match ← (answer P hmac config moment words payload).mapError (fun _ => SdkError.malformed) with
  | .error reply => Program.fail (.agentic reply)
  | response => return response

/-- The hash of the commit. -/
def commit (moment : Moment Hash) (input : CommitInput) : SdkProgram M String := do
  match ← request P hmac config words moment (.commit input) with
  | .commit out => return out.commitHash
  | _ => Program.fail .malformed

/-- An unknown name is no error here. -/
def resolve (moment : Moment Hash) (name : String) : SdkProgram M (Option String) := do
  match ← (request P hmac config words moment (.resolveRef name)).attempt with
  | .ok (.resolveRef hash) => return some hash
  | .ok (.objectData hash _ _) => return some hash
  | .ok _ => return none
  | .error (.agentic reply) =>
    if reply.errorClass = .notFound then return none else Program.fail (.agentic reply)
  | .error e => Program.fail e

def onMirror {α : Type} (p : MirrorProgram α) : SdkProgram M α :=
  p.focus Daemon.work (fun work d => { d with work })

/-- What a checkpoint is committed as. -/
def commitInput (thread envelopeJson : String) (metadata : D) : CommitInput where
  message := "langgraph step " ++ cp.step metadata ++ " (" ++ cp.source metadata ++ ")"
  author := some "langgraph"
  codeSha := none
  branch := some (cp.branchForThread thread)
  prompts := BTreeMap.ofList [(cp.checkpointBlobPath thread, utf8 envelopeJson.toList)]
  mcpServers := []
  model := none
  noMemory := true

/-- The file first, then the commit. -/
def put (moment : Moment Hash) (suffix : String) (asked : RunnableConfig) (checkpoint : C)
    (metadata : D) : SdkProgram M RunnableConfig := do
  let thread ← Program.ofExcept (requireThreadId asked)
  let envelopeJson := cp.json.dumps (cp.serialiseEnvelope checkpoint metadata thread)
  onMirror (FileTree.createDirAll .os [] (cp.onDisk thread).dropLast)
  onMirror (atomicWriteText (cp.onDisk thread) envelopeJson suffix)
  let hash ← commit P hmac config words moment (cp.commitInput thread envelopeJson metadata)
  return { threadId := some thread, checkpointNs := some asked.ns, checkpointId := some hash }

def otherCheckpoint : String :=
  "AgenticCheckpointer does not yet support resuming from a specific checkpoint_id other than " ++
    "the branch head. Use `agentic rollback <ref>` to move the branch tip, then call get_tuple " ++
    "without a checkpoint_id."

/-- An empty id asks for none. -/
def getTuple (moment : Moment Hash) (asked : RunnableConfig) :
    SdkProgram M (Option (CheckpointTuple C D)) := do
  let thread ← Program.ofExcept (requireThreadId asked)
  match ← resolve P hmac config words moment (cp.branchForThread thread) with
  | none => return none
  | some head =>
    if asked.checkpointId.any (fun id => id ≠ "" ∧ id ≠ head) then
      Program.fail (.notImplemented otherCheckpoint)
    else do
      let there ← onMirror (Program.read (fun t => .ok (t.node? (cp.onDisk thread)).isSome) .os)
      if there then
        let text ← onMirror (Program.read (fun t => readText t (cp.onDisk thread)) .os)
        let envelope ← Program.ofExcept (match cp.json.loads text with
          | some j => .ok j
          | none => .error .malformed)
        let (checkpoint, metadata) ← Program.ofExcept (cp.deserialiseEnvelope envelope)
        return some {
          config := { threadId := some thread, checkpointNs := some asked.ns, checkpointId := some head }
          checkpoint, metadata }
      else return none

end

end AgenticCheckpointer

end GitAgentic
