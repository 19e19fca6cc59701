import GitAgentic.Daemon.DiffReply
import GitAgentic.Daemon.Envelopes
import GitAgentic.Daemon.WireError
import GitAgentic.Data.Outcomes
import GitAgentic.Json.Size
import GitAgentic.Proto.Framing

/-! What the daemon answers: every request comes to a response, a failure to an error of its
class, and the response goes out in an envelope, in one frame. -/
namespace GitAgentic

structure LogEntry where
  hash : String
  message : String
  author : String
  timestamp : String

inductive Response where
  | pong
  | commit (out : CommitOutput)
  | log (entries : List LogEntry)
  | diff (out : DiffOutput)
  | rollback (out : RollbackOutput)
  | resolveRef (hash : String)
  | objectData (hash objectKind : String) (data : Bytes)
  | error (reply : ErrorReply)

namespace Response

def notFound (code message : String) : Response :=
  .error { errorClass := .notFound, code, message, retryable := false }

def validation (code message : String) : Response :=
  .error { errorClass := .validation, code, message, retryable := false }

def concurrency (code message : String) : Response :=
  .error { errorClass := .concurrency, code, message, retryable := true }

end Response

/- Writers: a response carries its tag first. -/

def ErrorClass.tag : ErrorClass → String
  | .protocol => "protocol"
  | .validation => "validation"
  | .notFound => "not_found"
  | .storage => "storage"
  | .memory => "memory"
  | .concurrency => "concurrency"
  | .internal => "internal"
  | .unknown => "unknown"

def LogEntry.toJson (e : LogEntry) : Json :=
  .object [("hash", .string e.hash), ("message", .string e.message), ("author", .string e.author),
    ("timestamp", .string e.timestamp)]

def Response.kind : Response → String
  | .pong => "pong"
  | .commit _ => "commit"
  | .log _ => "log"
  | .diff _ => "diff"
  | .rollback _ => "rollback"
  | .resolveRef _ => "resolve_ref"
  | .objectData _ _ _ => "object_data"
  | .error _ => "error"

def stringsJson (ss : List String) : Json := .array (ss.map .string)

def Response.members (codec : WireCodec) : Response → List (String × Json)
  | .pong => []
  | .commit out => [("commit_hash", .string out.commitHash), ("branch", .string out.branch)]
  | .log entries => [("entries", .array (entries.map LogEntry.toJson))]
  | .diff out => [("from", .string out.from_), ("to", .string out.to_),
      ("prompts", stringsJson out.prompts), ("tools", stringsJson out.tools),
      ("model_changed", .bool out.modelChanged), ("memory_summary", .string out.memorySummary),
      ("schema_summary", .string out.schemaSummary)]
  | .rollback out => [("planned_steps", stringsJson out.plannedSteps),
      ("executed", .bool out.executed), ("new_head_hash", optionJson .string out.newHeadHash)]
  | .resolveRef hash => [("hash", .string hash)]
  | .objectData hash objectKind data => [("hash", .string hash),
      ("object_kind", .string objectKind), ("data", base64Json codec data)]
  | .error reply => [("class", .string reply.errorClass.tag), ("code", .string reply.code),
      ("message", .string reply.message), ("retryable", .bool reply.retryable)]

def Response.toJson (codec : WireCodec) (r : Response) : Json :=
  .object (("kind", .string r.kind) :: r.members codec)

/- The requests. -/

/-- What the daemon meets while it serves a request: who sent it, whether the rate allows it,
whether the queue of commits has room, whether a shutdown is signalled before it queues and
while it waits, what the tool servers answer, and the clock. -/
structure Moment (Hash : Type) where
  peerUid : Option UInt32
  granted : Bool
  slot : Bool
  cancelledBefore : Bool
  cancelledMeanwhile : Bool
  fingerprints : List (Except (DaemonError Hash) Bytes)
  nowSeconds : UInt64
  now : Int

section

variable {Hash M : Type} (P : Platform Hash)

/-- `DateTime::to_rfc3339`: the offset stands where the serialized form ends in `Z`. -/
def toRfc3339 (t : Int) : String := String.ofList ((P.rfc3339 t).toList.dropLast ++ "+00:00".toList)

def LogEntry.of (e : Hash × Commit Hash) : LogEntry where
  hash := P.toHex e.1
  message := e.2.message
  author := e.2.author
  timestamp := toRfc3339 P e.2.timestamp

def shuttingDown : DaemonError Hash :=
  .text "daemon is shutting down; refusing new write-path work"

def checkShutdown (cancelled : Bool) : DaemonProgram Hash M Unit :=
  if cancelled then Program.fail shuttingDown else return ()

def commitQueueFull : Response :=
  .concurrency "commit_queue_full" "commit queue is full; retry shortly"

def inQueue (slot : Bool) (p : DaemonProgram Hash M Response) : DaemonProgram Hash M Response :=
  if slot then p else return commitQueueFull

/-- `str::parse` -/
def parseObjectHash (hash : String) : Except (DaemonError Hash) Hash :=
  if hash.utf8ByteSize ≠ 64 then
    .error (.text ("hash must be 64 hex characters, got " ++ decimal hash.utf8ByteSize))
  else match (Refs.hexDecode hash.toList).bind P.fromBytes with
    | some h => .ok h
    | none => .error (.text "hash contains non-hex characters")

def maxObjectBytes : Nat := 10 * 1024 * 1024

def objectTooLarge (h : Hash) (size : Nat) : String :=
  "object " ++ P.toHex h ++ " is too large to fetch inline (" ++ decimal size ++ " bytes > " ++
    decimal maxObjectBytes ++ " byte limit)"

def objectReply (h : Hash) (object : Object Hash) : Response :=
  let data := object.preimage P
  if data.length > maxObjectBytes then
    .validation "object_too_large" (objectTooLarge P h data.length)
  else .objectData (P.toHex h) object.kind.name data

variable [DecidableEq Hash]

def readLog (limit : Nat) (head : Hash) : DaemonProgram Hash M (List (Hash × Commit Hash)) :=
  if limit = 0 then return [] else readObjects (fun files => walkLog P files limit (some head))

def readDiff (snapshot : RefsSnapshot Hash) (source target : String) :
    DaemonProgram Hash M DiffOutput := do
  let _ ← Program.ofExcept (lookUp P snapshot source)
  let _ ← Program.ofExcept (lookUp P snapshot target)
  Program.read (fun d => handleDiff P d.repo.objects snapshot source target) (.core .io)

variable (hmac : Hmac) (config : DaemonConfig Hash M) (moment : Moment Hash)

def dispatch : Wire.Request → DaemonProgram Hash M Response
  | .ping => return .pong
  | .resolveRef name => do
    match ← withContext ("resolving ref " ++ name) (onDaemonRefs (Refs.resolve P name)) with
    | some hash => return .resolveRef (P.toHex hash)
    | none => return .notFound "ref_not_found" ("ref not found: " ++ name)
  | .commit input => do
    checkShutdown moment.cancelledBefore
    inQueue moment.slot (do
      checkShutdown moment.cancelledMeanwhile
      return .commit
        (← Commit.executeWithNow P config input moment.peerUid moment.fingerprints moment.now))
  | .log limit => do
    match ← onDaemonRefs (Refs.resolve P "HEAD") with
    | none => return .log []
    | some head => return .log ((← readLog P limit head).map (LogEntry.of P))
  | .diff source target =>
    inQueue moment.slot (do
      let snapshot ← onDaemonRefs (Refs.snapshot P)
      return .diff (← readDiff P snapshot source target))
  | .readObject hash => do
    let h ← withContext ("invalid hash: " ++ hash) (Program.ofExcept (parseObjectHash P hash))
    let object ← withContext ("reading object " ++ hash) (readObjects (fun files => get P files h))
    return objectReply P h object
  | .rollback target dryRun acceptDataLoss approvalToken => do
    checkShutdown moment.cancelledBefore
    inQueue moment.slot (do
      checkShutdown moment.cancelledMeanwhile
      return .rollback (← Rollback.execute P hmac config
        { target, dryRun, acceptDataLoss, approvalToken } moment.peerUid moment.nowSeconds
        moment.now))

variable (w : Words)

def respond : Except (DaemonError Hash) Response → Response
  | .ok response => response
  | .error e => .error (mapAnyhowToResponseError P w e)

def rateBudgetExhausted : Response :=
  .concurrency "rate_budget_exhausted" "per-UID request rate budget exhausted; retry shortly"

/-- What the connection does with a request it has read. -/
def answer (request : Wire.Request) : DaemonProgram Hash M Response :=
  if moment.granted then do
    return respond P w (← (dispatch P hmac config moment request).attempt)
  else return rateBudgetExhausted

variable (codec : WireCodec)

def writeReply (correlationId : String) (response : Response) (sent : Bytes) :
    Except Framing.FrameError Unit × Bytes :=
  Framing.writeFrame (fun reply => some (P.toVec reply))
    (envelopeJson correlationId (some protocolVersion) (response.toJson codec)) sent

end

/- How large a reply is. -/

section

open Json

def stringsSize (ss : List String) : Nat :=
  (ss.map (fun s => quotedSize s + 1)).sum + if ss = [] then 2 else 1

def boolSize (b : Bool) : Nat := if b then 4 else 5

def LogEntry.size (e : LogEntry) : Nat :=
  quotedSize e.hash + quotedSize e.message + quotedSize e.author + quotedSize e.timestamp + 43

def entriesSize (entries : List LogEntry) : Nat :=
  (entries.map (fun e => e.size + 1)).sum + if entries = [] then 2 else 1

def DiffOutput.size (out : DiffOutput) : Nat :=
  quotedSize out.from_ + quotedSize out.to_ + stringsSize out.prompts + stringsSize out.tools +
    boolSize out.modelChanged + quotedSize out.memorySummary + quotedSize out.schemaSummary + 102

def RollbackOutput.size (out : RollbackOutput) : Nat :=
  stringsSize out.plannedSteps + boolSize out.executed + out.newHeadHash.elim 4 quotedSize + 65

def ErrorReply.size (reply : ErrorReply) : Nat :=
  quotedSize reply.errorClass.tag + quotedSize reply.code + quotedSize reply.message +
    boolSize reply.retryable + 57

/-- The texts of a response in their quotes, and what stands between them. -/
def Response.size (codec : WireCodec) : Response → Nat
  | .pong => 15
  | .commit out => quotedSize out.commitHash + quotedSize out.branch + 42
  | .log entries => entriesSize entries + 25
  | .diff out => out.size
  | .rollback out => out.size
  | .resolveRef hash => quotedSize hash + 30
  | .objectData hash objectKind data =>
    quotedSize hash + quotedSize objectKind + quotedSize (codec.encodeBase64 data) + 53
  | .error reply => reply.size

variable (f64 : UInt64 → List Char)

theorem size_stringsJson (ss : List String) : Json.size f64 (stringsJson ss) = stringsSize ss := by
  rw [stringsJson, size_array, List.map_map, stringsSize]
  cases ss with
  | nil => rfl
  | cons s ss => rfl

theorem LogEntry.size_toJson (e : LogEntry) : Json.size f64 e.toJson = e.size := by
  simp (disch := decide +kernel) only [LogEntry.toJson, LogEntry.size, size_object_cons, memberSize,
    size_string, List.map_cons, List.map_nil, List.sum_cons, List.sum_nil, quotedSize_of_plain,
    String.reduceToList, List.length_cons, List.length_nil]
  omega

theorem size_entries (entries : List LogEntry) :
    Json.size f64 (.array (entries.map LogEntry.toJson)) = entriesSize entries := by
  have each : (fun e : LogEntry => Json.size f64 e.toJson + 1) = fun e => e.size + 1 :=
    funext fun e => congrArg (· + 1) (e.size_toJson f64)
  rw [size_array, List.map_map, entriesSize, ← each]
  cases entries with
  | nil => rfl
  | cons e entries => rfl

theorem size_optionJson (s : Option String) :
    Json.size f64 (optionJson .string s) = s.elim 4 quotedSize := by
  cases s with
  | none => rfl
  | some s => rfl

theorem Response.size_toJson (codec : WireCodec) (r : Response) :
    Json.size f64 (r.toJson codec) = r.size codec := by
  cases r <;>
    simp (disch := decide +kernel) only [Response.toJson, Response.kind, Response.members,
      Response.size, DiffOutput.size, RollbackOutput.size, ErrorReply.size, base64Json, boolSize,
      size_object_cons, memberSize, size_string, size_bool, size_stringsJson, size_entries,
      size_optionJson, List.map_cons, List.map_nil, List.sum_cons, List.sum_nil,
      quotedSize_of_plain, String.reduceToList, List.length_cons, List.length_nil] <;>
    omega

theorem size_envelopeJson (correlationId : String) (payload : Json) :
    Json.size f64 (envelopeJson correlationId (some protocolVersion) payload) =
      quotedSize correlationId + Json.size f64 payload + 51 := by
  have version : Json.size f64 (usizeJson protocolVersion) = 1 := by rfl
  simp (disch := decide +kernel) only [envelopeJson, Option.map_some, Option.toList_some,
    List.singleton_append, size_object_cons, memberSize, size_string, version, List.map_cons,
    List.map_nil, List.sum_cons, List.sum_nil, quotedSize_of_plain, String.reduceToList,
    List.length_cons, List.length_nil]
  omega

end

/-- A frame has room for a payload of so many bytes beside the correlation id. -/
def Room (correlationId : String) (payload : Nat) : Prop :=
  Json.quotedSize correlationId + payload + 51 ≤ Framing.maxFrameBytes

theorem writeReply_ok_iff {Hash : Type} (P : Platform Hash) (codec : WireCodec)
    (correlationId : String) (response : Response) (sent : Bytes) :
    (writeReply P codec correlationId response sent).1 = .ok () ↔
      Room correlationId (response.size codec) := by
  have size : (P.toVec (envelopeJson correlationId (some protocolVersion)
      (response.toJson codec))).length =
      Json.quotedSize correlationId + response.size codec + 51 := by
    rw [← response.size_toJson P.f64Text codec]
    exact size_envelopeJson P.f64Text correlationId _
  rw [Room, ← size]
  exact Framing.writeFrame_ok_iff rfl sent

end GitAgentic
