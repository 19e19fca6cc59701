import GitAgentic.Daemon.Commit
import GitAgentic.Daemon.Rollback
import GitAgentic.Json.Nesting
import GitAgentic.Json.Normal

/-! Requests as they arrive: an envelope of version 0 or 1 around a tagged request. The
version is read in a first pass over the document, the request in a second. -/
namespace GitAgentic

def protocolVersion : Nat := 1

inductive Wire.Request where
  | ping
  | commit (input : CommitInput)
  | log (limit : Nat)
  | diff (source target : String)
  | rollback (target : String) (dryRun acceptDataLoss : Bool) (approvalToken : Option String)
  | resolveRef (name : String)
  | readObject (hash : String)

structure CommitInputV0 where
  message : String
  author : Option String
  codeSha : Option String
  branch : Option String
  prompts : BTreeMap String String
  mcpServers : List String
  model : Option String
  noMemory : Bool

inductive RequestV0 where
  | ping
  | commit (input : CommitInputV0)
  | log (limit : Nat)
  | diff (source target : String)
  | rollback (target : String) (dryRun acceptDataLoss : Bool)
  | resolveRef (name : String)
  | readObject (hash : String)

def CommitInputV0.into (v0 : CommitInputV0) : CommitInput where
  message := v0.message
  author := v0.author
  codeSha := v0.codeSha
  branch := v0.branch
  prompts := BTreeMap.ofList (v0.prompts.entries.map (fun e => (e.1, utf8 e.2.toList)))
  mcpServers := v0.mcpServers
  model := v0.model
  noMemory := v0.noMemory

/-- Version 0 has no approval token. -/
def RequestV0.into : RequestV0 → Wire.Request
  | .ping => .ping
  | .commit input => .commit input.into
  | .log limit => .log limit
  | .diff source target => .diff source target
  | .rollback target dryRun acceptDataLoss => .rollback target dryRun acceptDataLoss none
  | .resolveRef name => .resolveRef name
  | .readObject hash => .readObject hash

inductive ErrorClass where
  | protocol | validation | notFound | storage | memory | concurrency | internal | unknown
  deriving DecidableEq

structure ErrorReply where
  errorClass : ErrorClass
  code : String
  message : String
  retryable : Bool
  deriving DecidableEq

def ErrorReply.protocol (code message : String) : ErrorReply :=
  { errorClass := .protocol, code, message, retryable := false }

inductive EnvelopeParseError where
  | attributable (correlationId : String) (response : ErrorReply)
  | unattributable (message : String)
  deriving DecidableEq

/-- The libraries' base64, the reader of documents, and its words about one it cannot take.
Of the reader it is only known what it does with the compact text of a document without
floating point literals: it reads it back up to the limit of nesting, and refuses it beyond. -/
structure WireCodec where
  encodeBase64 : Bytes → String
  decodeBase64 : String → Option Bytes
  decode_encode : ∀ b, decodeBase64 (encodeBase64 b) = some b
  fromSlice : Bytes → Option Json
  fromSlice_text : ∀ f64Text j, j.integral = true → j.depth ≤ Json.nestingLimit →
    fromSlice (utf8 (Json.text f64Text j)) = some j
  fromSlice_deep : ∀ f64Text j, j.integral = true → Json.nestingLimit < j.depth →
    fromSlice (utf8 (Json.text f64Text j)) = none
  explain : Bytes → String

/-- Hex in the place of base64, and the sample reader: a codec on which definitions can be
run. -/
def Daemon.hexCodec : WireCodec where
  encodeBase64 bytes := String.ofList (bytes.flatMap Platform.hexByte)
  decodeBase64 s := Refs.hexDecode s.toList
  decode_encode bytes := by rw [String.toList_ofList, Refs.hexDecode_flatMap]
  fromSlice := Json.sampleFromSliceWithin
  fromSlice_text f64Text _ := Json.sampleFromSliceWithin_text f64Text
  fromSlice_deep f64Text _ := Json.sampleFromSliceWithin_deep f64Text
  explain _ := "unreadable"

/- Readers. -/

def readBool : Json → Option Bool
  | .bool b => some b
  | _ => none

def readU16 : Json → Option Nat
  | .number (.posInt n) => if n.toNat < 2 ^ 16 then some n.toNat else none
  | _ => none

def readUsize : Json → Option Nat
  | .number (.posInt n) => some n.toNat
  | _ => none

def readBTreeMap {α : Type} (read : Json → Option α) : Json → Option (BTreeMap String α)
  | .object ms => do
    let es ← ms.mapM (fun e => do some (e.1, ← read e.2))
    some (BTreeMap.ofList es)
  | _ => none

/-- The content of a struct: by name, or in the order of the fields. -/
inductive Content where
  | members (ms : List (String × Json))
  | elements (xs : List Json)

namespace Content

def atMost (n : Nat) : Content → Option Unit
  | .members _ => some ()
  | .elements xs => if xs.length ≤ n then some () else none

def required {α : Type} (read : Json → Option α) (c : Content) (i : Nat) (name : String) : Option α :=
  match c with
  | .members ms => GitAgentic.required read ms name
  | .elements xs => xs[i]?.bind read

def defaulted {α : Type} (value : α) (read : Json → Option α) (c : Content) (i : Nat)
    (name : String) : Option α :=
  match c with
  | .members ms => GitAgentic.defaulted value read ms name
  | .elements xs =>
    match xs[i]? with
    | some x => read x
    | none => some value

end Content

def readTagged (tag : String) : Json → Option (String × Content)
  | .object ms => do
    let op ← required readStr ms tag
    some (op, .members (ms.filter (fun m => m.1 != tag)))
  | .array (op :: xs) => do some (← readStr op, .elements xs)
  | _ => none

def CommitInputV0.fromContent (c : Content) : Option CommitInputV0 := do
  c.atMost 8
  let message ← c.required readStr 0 "message"
  let author ← c.defaulted none (readOption readStr) 1 "author"
  let codeSha ← c.defaulted none (readOption readStr) 2 "code_sha"
  let branch ← c.defaulted none (readOption readStr) 3 "branch"
  let prompts ← c.required (readBTreeMap readStr) 4 "prompts"
  let mcpServers ← c.defaulted [] (readList readStr) 5 "mcp_servers"
  let model ← c.defaulted none (readOption readStr) 6 "model"
  let noMemory ← c.defaulted false readBool 7 "no_memory"
  some { message, author, codeSha, branch, prompts, mcpServers, model, noMemory }

def RequestV0.fromJson (j : Json) : Option RequestV0 := do
  let (op, c) ← readTagged "op" j
  if op = "ping" then do
    c.atMost 0
    some .ping
  else if op = "commit" then (CommitInputV0.fromContent c).map .commit
  else if op = "log" then do
    c.atMost 1
    some (.log (← c.required readUsize 0 "limit"))
  else if op = "diff" then do
    c.atMost 2
    some (.diff (← c.required readStr 0 "from") (← c.required readStr 1 "to"))
  else if op = "rollback" then do
    c.atMost 3
    let target ← c.required readStr 0 "target"
    let dryRun ← c.required readBool 1 "dry_run"
    let acceptDataLoss ← c.required readBool 2 "accept_data_loss"
    some (.rollback target dryRun acceptDataLoss)
  else if op = "resolve_ref" then do
    c.atMost 1
    some (.resolveRef (← c.required readStr 0 "name"))
  else if op = "read_object" then do
    c.atMost 1
    some (.readObject (← c.required readStr 0 "hash"))
  else none

section

variable (codec : WireCodec)

def readBase64 (j : Json) : Option Bytes := do codec.decodeBase64 (← readStr j)

def CommitInput.fromContent (c : Content) : Option CommitInput := do
  c.atMost 8
  let message ← c.required readStr 0 "message"
  let author ← c.defaulted none (readOption readStr) 1 "author"
  let codeSha ← c.defaulted none (readOption readStr) 2 "code_sha"
  let branch ← c.defaulted none (readOption readStr) 3 "branch"
  let prompts ← c.required (readBTreeMap (readBase64 codec)) 4 "prompts"
  let mcpServers ← c.defaulted [] (readList readStr) 5 "mcp_servers"
  let model ← c.defaulted none (readOption readStr) 6 "model"
  let noMemory ← c.defaulted false readBool 7 "no_memory"
  some { message, author, codeSha, branch, prompts, mcpServers, model, noMemory }

def Wire.Request.fromJson (j : Json) : Option Wire.Request := do
  let (op, c) ← readTagged "op" j
  if op = "ping" then do
    c.atMost 0
    some .ping
  else if op = "commit" then (CommitInput.fromContent codec c).map .commit
  else if op = "log" then do
    c.atMost 1
    some (.log (← c.required readUsize 0 "limit"))
  else if op = "diff" then do
    c.atMost 2
    some (.diff (← c.required readStr 0 "from") (← c.required readStr 1 "to"))
  else if op = "rollback" then do
    c.atMost 4
    let target ← c.required readStr 0 "target"
    let dryRun ← c.required readBool 1 "dry_run"
    let acceptDataLoss ← c.required readBool 2 "accept_data_loss"
    let approvalToken ← c.defaulted none (readOption readStr) 3 "approval_token"
    some (.rollback target dryRun acceptDataLoss approvalToken)
  else if op = "resolve_ref" then do
    c.atMost 1
    some (.resolveRef (← c.required readStr 0 "name"))
  else if op = "read_object" then do
    c.atMost 1
    some (.readObject (← c.required readStr 0 "hash"))
  else none

/-- `Envelope<T>`, of which only the payload is kept. The first pass takes no envelope in
the order of its fields. -/
def readEnvelope {α : Type} (read : Json → Option α) : Json → Option α
  | .object ms => do
    let _ ← required readStr ms "correlation_id"
    let _ ← defaulted 0 readU16 ms "protocol_version"
    required read ms "payload"
  | _ => none

variable {Hash : Type} (P : Platform Hash)

def typeName : Json → String
  | .string _ => "string"
  | .bool _ => "boolean"
  | .array _ => "array"
  | .object _ => "object"
  | .null => "null"
  | .number _ => "number"

def Number.asU64? : Number → Option UInt64
  | .posInt n => some n
  | _ => none

def readVersion (value : Json) : Except ErrorReply Nat :=
  let malformed (message : String) : Except ErrorReply Nat :=
    .error (.protocol "malformed_protocol_version" message)
  match value.get? "protocol_version" with
  | none => .ok 0
  | some (.number n) =>
    match n.asU64? with
    | none =>
      malformed ("protocol_version is not a non-negative integer: " ++ P.toText (.number n))
    | some v =>
      if v.toNat < 2 ^ 16 then .ok v.toNat
      else malformed ("protocol_version " ++ decimal v.toNat ++
        " exceeds the u16 wire range; max is 65535")
  | some other =>
    malformed ("protocol_version must be a JSON integer; got " ++ typeName other)

def parseEnvelopeWithV0Shim (bytes : Bytes) : Except EnvelopeParseError (String × Wire.Request) :=
  match codec.fromSlice bytes with
  | none => .error (.unattributable ("envelope JSON parse failed: " ++ codec.explain bytes))
  | some doc =>
    let value := (Value.ofJson doc).json
    match (value.get? "correlation_id").bind Json.asStr? with
    | none => .error (.unattributable "envelope missing correlation_id")
    | some correlationId => do
      let refuse (code message : String) : EnvelopeParseError :=
        .attributable correlationId (.protocol code message)
      let version ← (readVersion P value).mapError (.attributable correlationId)
      if version > protocolVersion then
        throw (refuse "version_mismatch" ("client protocol_version " ++ decimal version ++
          " > daemon-supported " ++ decimal protocolVersion ++
          "; upgrade the daemon or downgrade the client"))
      else if version = 0 then
        match readEnvelope RequestV0.fromJson doc with
        | some request => return (correlationId, request.into)
        | none => throw (refuse "malformed_v0_envelope"
            ("v0 envelope failed to deserialise: " ++ codec.explain bytes))
      else
        match readEnvelope (Wire.Request.fromJson codec) doc with
        | some request => return (correlationId, request)
        | none => throw (refuse "malformed_envelope" ("v" ++ decimal version ++
            " envelope failed to deserialise: " ++ codec.explain bytes))

end

end GitAgentic
