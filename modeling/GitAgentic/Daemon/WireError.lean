import GitAgentic.Daemon.Wire
import GitAgentic.Memory.InMemorySnapshot
import GitAgentic.Memory.Restore

/-! The error reply for a failed request. Typed causes are classified by their type; the
catch-all error of the memory backends, and whatever has no type, by the words of its text. -/
namespace GitAgentic

/-- The errors of the database client. -/
inductive SqlxError where
  | rowNotFound | poolTimedOut | poolClosed | io | database | configuration
  | columnNotFound | columnIndexOutOfBounds | columnDecode | typeNotFound | decode
  | otherwise
  deriving DecidableEq

/-- What an error of the model keeps no record of: the libraries' own words, the kind of a
database error, and the place of a row. -/
structure Words where
  io : String
  serialize : String
  sqlx : SqlxError
  sqlxText : String
  qualified : String
  rowIdx : Nat
  manifest : SegmentManifest.Invalid → String

/-- Nothing is said. -/
def wordless : Words where
  io := ""
  serialize := ""
  sqlx := .otherwise
  sqlxText := ""
  qualified := ""
  rowIdx := 0
  manifest := fun _ => ""

/- Display and debug forms. -/

def HitKind.debug : HitKind → String
  | .pattern name => "Pattern(" ++ debugText name ++ ")"
  | .highEntropy => "HighEntropy"

def Hit.debug (hit : Hit) : String :=
  "Hit \x7b kind: " ++ hit.kind.debug ++ ", offset: " ++ decimal hit.offset ++ ", length: " ++
    decimal hit.length ++ " \x7d"

def debugHits (hits : List Hit) : String := "[" ++ ", ".intercalate (hits.map Hit.debug) ++ "]"

def ApprovalError.message : ApprovalError → String
  | .keyNotConfigured =>
    "accept_data_loss=true requires an operator approval token (ADR-0014), but this " ++
    "daemon has no --approval-key-file configured — failing closed. Destructive rollback " ++
    "is unavailable until an approval key is provisioned."
  | .noPeerUid =>
    "accept_data_loss=true cannot be authorized because the connection has no attested " ++
    "peer UID (the daemon is running with --insecure-allow-any-uid). An approval token " ++
    "binds to a specific worker UID (ADR-0014 Decision 2), so destructive rollback is " ++
    "refused in this mode."
  | .tokenRequired =>
    "accept_data_loss=true requires an approval_token, but none was supplied (ADR-0014). " ++
    "Have the operator mint one with `agentic rollback --approval <commit> --uid <uid> " ++
    "--key-file <path>`."
  | .rejected cause => "approval token rejected: " ++ cause.message

section

variable {Hash : Type} (P : Platform Hash) (w : Words)

def Error.message : Error Hash → String
  | .io => "io error: " ++ w.io
  | .serialize => "serialization error: " ++ w.serialize
  | .notFound hash => "object not found: " ++ P.toHex hash
  | .kindMismatch expected actual =>
    "object kind mismatch: expected " ++ expected.debug ++ ", got " ++ actual.debug
  | .integrityError declared computed =>
    "object integrity error: declared " ++ P.toHex declared ++ ", computed " ++ P.toHex computed
  | .secretDetected hits => "blob rejected by secret scanner: " ++ debugHits hits
  | .invalidBranchName name reason => "invalid branch name " ++ debugText name ++ ": " ++ reason
  | .other message => message

def BackendError.message : BackendError Hash → String
  | .nullKey table pkCol =>
    "streamer event for table " ++ debugText table ++ ": PK column " ++ debugText pkCol ++
      " is NULL; refusing to anchor segment on a null PK"
  | .absentKey table pkCol =>
    "streamer event for table " ++ debugText table ++ ": PK column " ++ debugText pkCol ++
      " is absent from event row; check TrackedTable.pk vs the trigger payload"
  | .nullPrimaryKey pk table =>
    "primary-key column " ++ debugText pk ++ " is NULL in table " ++ debugText table ++
      "; snapshots require a non-NULL PK on every row"
  | .absentPrimaryKey pk table =>
    "primary-key column " ++ debugText pk ++ " is absent from table " ++ debugText table ++
      "'s row schema; check TrackedTable.pk against the live schema"
  | .persistingSegment cause => "persisting segment: " ++ cause.message P w
  | .loadingSegment segment cause =>
    "loading segment " ++ P.toHex segment ++ ": " ++ cause.message P w
  | .decodingSegment segment => "decoding segment " ++ P.toHex segment ++ ": " ++ w.serialize
  | .emptyIdentifier => "empty identifier"
  | .invalidIdentifier name => "invalid character in identifier: " ++ debugText name
  | .unknownOp op =>
    "unknown op " ++ debugText op ++ " in segment envelope; restore can't safely replay this " ++
      "row. The streamer side likely emits a new op type that restore hasn't been taught to " ++
      "handle yet."
  | .nonStringOp op => "segment envelope has a non-string `op` field: " ++ P.toText op
  | .rowNotObject row => "segment row is not a JSON object: " ++ P.toText row
  | .emptyDelete pkCol =>
    "delete envelope row is empty for " ++ w.qualified ++ "; PK column " ++ debugText pkCol ++
      " is absent so we cannot issue the DELETE. Refusing to no-op a delete."
  | .nullDeleteKey pkCol =>
    "batch delete for " ++ w.qualified ++ ": PK column " ++ debugText pkCol ++ " is NULL in one " ++
      "of the envelope rows; DELETE … WHERE pk IN (NULL) silently matches zero rows. Refusing " ++
      "to no-op a delete."
  | .absentDeleteKey pkCol =>
    "batch delete for " ++ w.qualified ++ ": PK column " ++ debugText pkCol ++ " is absent from " ++
      "one of the envelope rows; can't issue the DELETE."
  | .columnMissing col =>
    "row " ++ decimal w.rowIdx ++ " unexpectedly missing column " ++ debugText col ++
      " after column-set match; this is a bug in apply_segment_rows"
  | .undecodable => "decoding segment: " ++ w.serialize

theorem BackendError.message_persistingSegment (e : Error Hash) :
    (BackendError.persistingSegment e).message P w = "persisting segment: " ++ e.message P w := rfl

theorem BackendError.message_loadingSegment (hash : Hash) (e : Error Hash) :
    (BackendError.loadingSegment hash e).message P w =
      "loading segment " ++ P.toHex hash ++ ": " ++ e.message P w := rfl

def Error.chain (e : Error Hash) : List String :=
  e.message P w :: match e with
    | .io => [w.io]
    | .serialize => [w.serialize]
    | _ => []

def MemoryError.chain : MemoryError Hash → List String
  | .backend cause => ["backend error: " ++ cause.message P w]
  | .schemaMismatch live target =>
    ["schema version mismatch: live " ++ debugText live ++ ", target " ++ debugText target]
  | .missingReverseMigration name => ["required reverse migration missing for: " ++ name]
  | .streamerShutdown => ["streamer task has shut down (channel closed)"]
  | .core cause => cause.chain P w
  | .sqlx => [w.sqlxText]
  | .other message => [message]

def DaemonError.chain : DaemonError Hash → List String
  | .core cause => cause.chain P w
  | .memory cause => cause.chain P w
  | .approval cause => cause.message :: match cause with
    | .rejected rejection => [rejection.message]
    | _ => []
  | .manifest cause => [w.manifest cause]
  | .io => [w.io]
  | .text message => [message]
  | .context message cause => message :: cause.chain

/-- `{:#}` -/
def DaemonError.message (err : DaemonError Hash) : String := ": ".intercalate (err.chain P w)

end

def DaemonError.cause {Hash : Type} : DaemonError Hash → DaemonError Hash
  | .context _ cause => cause.cause
  | err => err

/- Classification: class, code and whether a retry may help. -/

abbrev Classification := ErrorClass × String × Bool

/-- `str::contains` -/
def mentions (needle : String) (s : String) : Bool := decide (needle.toList <:+: s.toList)

section

variable {Hash : Type}

def classifyCoreError : Error Hash → Classification
  | .notFound _ => (.notFound, "object_not_found", false)
  | .integrityError _ _ => (.storage, "object_integrity_failure", false)
  | .secretDetected _ => (.validation, "secret_detected", false)
  | .invalidBranchName _ _ => (.validation, "invalid_branch_name", false)
  | .io => (.storage, "io_failure", true)
  | .serialize => (.storage, "serialization_failure", false)
  | .kindMismatch _ _ => (.storage, "object_kind_mismatch", false)
  | .other _ => (.internal, "core_other", false)

/-- The first words that are found decide. -/
def classifyMemoryBackendMessage (msg : String) : Classification :=
  let lower := toAsciiLowercase msg
  if mentions "pgvector extension is not installed" lower then
    (.memory, "pgvector_not_installed", false)
  else if mentions "empty identifier" lower || mentions "invalid character in identifier" lower then
    (.validation, "invalid_identifier", false)
  else if mentions "called before init" lower || mentions "not initialised" lower ||
      mentions "not initialized" lower then
    (.memory, "backend_not_initialised", false)
  else if mentions "misconfigured" lower || mentions "invalid configuration" lower then
    (.memory, "backend_misconfigured", false)
  else if mentions "streamer task has shut down" lower ||
      mentions "streamer dropped reply channel" lower then
    (.memory, "streamer_dead", false)
  else if mentions "segment row is not a json object" lower then
    (.storage, "segment_row_corrupt", false)
  else (.memory, "backend_failure", true)

def classifySqlxLike : SqlxError → Classification
  | .rowNotFound => (.notFound, "row_not_found", false)
  | .poolTimedOut | .poolClosed => (.memory, "postgres_pool_unavailable", true)
  | .io => (.memory, "postgres_io_failure", true)
  | .database => (.memory, "postgres_database", false)
  | .configuration => (.memory, "postgres_configuration", false)
  | .columnNotFound | .columnIndexOutOfBounds | .columnDecode | .typeNotFound | .decode =>
    (.memory, "postgres_schema_drift", false)
  | .otherwise => (.memory, "postgres_other", true)

def approvalCode : ApprovalError → String
  | .keyNotConfigured => "approval_key_not_configured"
  | .noPeerUid => "approval_no_peer_uid"
  | .tokenRequired => "approval_required"
  | .rejected .malformed => "approval_token_malformed"
  | .rejected (.expired _) => "approval_token_expired"
  | .rejected .invalidSignature => "approval_token_invalid_signature"

variable (P : Platform Hash) (w : Words)

def classifyMemoryError : MemoryError Hash → Classification
  | .backend cause => classifyMemoryBackendMessage (cause.message P w)
  | .schemaMismatch _ _ => (.memory, "schema_mismatch", false)
  | .missingReverseMigration _ => (.memory, "missing_reverse_migration", false)
  | .core cause => classifyCoreError cause
  | .sqlx => classifySqlxLike w.sqlx
  | .other _ => (.internal, "memory_other", false)
  | .streamerShutdown => (.memory, "streamer_dead", false)

/-- An error without a known type: the words of the whole chain, the contexts included. -/
def classifyText (message : String) : Classification :=
  let lower := toAsciiLowercase message
  if mentions "daemon is shutting down" lower then (.concurrency, "daemon_shutting_down", true)
  else if mentions "invalid hash" lower then (.validation, "invalid_hash", false)
  else if mentions "ref not found" lower || mentions "commit not found" lower then
    (.notFound, "ref_not_found", false)
  else if mentions "scanner" lower && mentions "rejected" lower then
    (.validation, "secret_detected", false)
  else (.internal, "unclassified", false)

def classify (err : DaemonError Hash) : Classification :=
  match err.cause with
  | .approval gate => (.validation, approvalCode gate, false)
  | .memory mem => classifyMemoryError P w mem
  | .core core => classifyCoreError core
  | _ => classifyText (err.message P w)

theorem classify_memory (context : String) (mem : MemoryError Hash) :
    classify P w (.context context (.memory mem)) = classifyMemoryError P w mem := rfl

def mapAnyhowToResponseError (err : DaemonError Hash) : ErrorReply where
  errorClass := (classify P w err).1
  code := (classify P w err).2.1
  message := err.message P w
  retryable := (classify P w err).2.2

end

end GitAgentic
