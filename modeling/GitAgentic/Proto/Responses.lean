import GitAgentic.Daemon.Replies

/-! Responses as a client reads them: what the daemon writes is read back. -/
namespace GitAgentic

/- Readers. -/

/-- A class that is not known is read as `unknown`. -/
def ErrorClass.ofTag (tag : String) : ErrorClass :=
  if tag = "protocol" then .protocol
  else if tag = "validation" then .validation
  else if tag = "not_found" then .notFound
  else if tag = "storage" then .storage
  else if tag = "memory" then .memory
  else if tag = "concurrency" then .concurrency
  else if tag = "internal" then .internal
  else .unknown

def LogEntry.fromJson : Json → Option LogEntry
  | .object ms => do
    let hash ← required readStr ms "hash"
    let message ← required readStr ms "message"
    let author ← required readStr ms "author"
    let timestamp ← required readStr ms "timestamp"
    some { hash, message, author, timestamp }
  | _ => none

def DiffOutput.fromMembers (ms : List (String × Json)) : Option DiffOutput := do
  let from_ ← required readStr ms "from"
  let to_ ← required readStr ms "to"
  let prompts ← required (readList readStr) ms "prompts"
  let tools ← required (readList readStr) ms "tools"
  let modelChanged ← required readBool ms "model_changed"
  let memorySummary ← required readStr ms "memory_summary"
  let schemaSummary ← required readStr ms "schema_summary"
  some { from_, to_, prompts, tools, modelChanged, memorySummary, schemaSummary }

def RollbackOutput.fromMembers (ms : List (String × Json)) : Option RollbackOutput := do
  let plannedSteps ← required (readList readStr) ms "planned_steps"
  let executed ← required readBool ms "executed"
  let newHeadHash ← defaulted none (readOption readStr) ms "new_head_hash"
  some { plannedSteps, executed, newHeadHash }

def ErrorReply.fromMembers (ms : List (String × Json)) : Option ErrorReply := do
  let tag ← required readStr ms "class"
  let code ← required readStr ms "code"
  let message ← required readStr ms "message"
  let retryable ← required readBool ms "retryable"
  some { errorClass := .ofTag tag, code, message, retryable }

section

variable (codec : WireCodec)

def Response.fromJson : Json → Option Response
  | .object ms => do
    let kind ← required readStr ms "kind"
    let rest := ms.filter (fun m => m.1 != "kind")
    if kind = "pong" then some .pong
    else if kind = "commit" then do
      some (.commit { commitHash := ← required readStr rest "commit_hash", branch := ← required readStr rest "branch" })
    else if kind = "log" then (required (readList LogEntry.fromJson) rest "entries").map .log
    else if kind = "diff" then (DiffOutput.fromMembers rest).map .diff
    else if kind = "rollback" then (RollbackOutput.fromMembers rest).map .rollback
    else if kind = "resolve_ref" then (required readStr rest "hash").map .resolveRef
    else if kind = "object_data" then do
      let hash ← required readStr rest "hash"
      let objectKind ← required readStr rest "object_kind"
      some (.objectData hash objectKind (← required (readBase64 codec) rest "data"))
    else if kind = "error" then (ErrorReply.fromMembers rest).map .error
    else none
  | _ => none

/-- `Envelope<Response>`, without its version. -/
def readReply : Json → Option (String × Response)
  | .object ms => do
    let correlationId ← required readStr ms "correlation_id"
    let _ ← defaulted 0 readU16 ms "protocol_version"
    some (correlationId, ← required (Response.fromJson codec) ms "payload")
  | _ => none

end

theorem ErrorClass.ofTag_tag (c : ErrorClass) : ErrorClass.ofTag c.tag = c := by
  cases c <;> decide

@[simp] theorem readStrings_stringsJson (ss : List String) : readList readStr (stringsJson ss) = some ss :=
  readList_string ss

theorem LogEntry.fromJson_toJson (e : LogEntry) : LogEntry.fromJson e.toJson = some e := by
  simp [LogEntry.fromJson, LogEntry.toJson, required, field]

theorem DiffOutput.fromMembers_members {out : DiffOutput} {codec : WireCodec} :
    DiffOutput.fromMembers ((Response.diff out).members codec) = some out := by
  simp [DiffOutput.fromMembers, Response.members, required, field]

theorem RollbackOutput.fromMembers_members {out : RollbackOutput} {codec : WireCodec} :
    RollbackOutput.fromMembers ((Response.rollback out).members codec) = some out := by
  simp [RollbackOutput.fromMembers, Response.members, required, defaulted, field]

theorem ErrorReply.fromMembers_members {reply : ErrorReply} {codec : WireCodec} :
    ErrorReply.fromMembers ((Response.error reply).members codec) = some reply := by
  simp [ErrorReply.fromMembers, Response.members, required, field, ErrorClass.ofTag_tag]

section

variable (codec : WireCodec)

theorem Response.members_untagged (r : Response) :
    (r.members codec).filter (fun m => m.1 == "kind") = [] ∧
      (r.members codec).filter (fun m => m.1 != "kind") = r.members codec := by
  cases r <;> simp [Response.members]

theorem readBase64_base64Json (bytes : Bytes) : readBase64 codec (base64Json codec bytes) = some bytes :=
  codec.decode_encode bytes

theorem Response.fromJson_toJson (r : Response) : Response.fromJson codec (r.toJson codec) = some r := by
  obtain ⟨untagged, rest⟩ := r.members_untagged codec
  have kind : required readStr (("kind", Json.string r.kind) :: r.members codec) "kind" = some r.kind := by
    simp [required, field, untagged]
  simp only [Response.fromJson, Response.toJson, kind, Option.bind_eq_bind, Option.bind_some]
  rw [List.filter_cons_of_neg (by simp), rest]
  cases r with
  | pong => rfl
  | commit out => simp [Response.kind, Response.members, required, field]
  | log entries =>
    have back := readList_map LogEntry.fromJson LogEntry.toJson LogEntry.fromJson_toJson entries
    simp [Response.kind, Response.members, required, field, back]
  | diff out => simp [Response.kind, DiffOutput.fromMembers_members]
  | rollback out => simp [Response.kind, RollbackOutput.fromMembers_members]
  | resolveRef hash => simp [Response.kind, Response.members, required, field]
  | objectData hash objectKind data =>
    simp [Response.kind, Response.members, required, field, readBase64_base64Json]
  | error reply => simp [Response.kind, ErrorReply.fromMembers_members]

theorem readReply_envelopeJson (correlationId : String) (r : Response) :
    readReply codec (envelopeJson correlationId (some protocolVersion) (r.toJson codec)) =
      some (correlationId, r) := by
  have version : readU16 (usizeJson protocolVersion) = some protocolVersion := readU16_usizeJson (by decide)
  simp [readReply, envelopeJson, required, defaulted, field, version, Response.fromJson_toJson]

end

end GitAgentic
