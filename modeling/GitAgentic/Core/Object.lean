import GitAgentic.Core.Platform
import GitAgentic.Data.BTreeMap

/-! The object kinds and their serialised form. Blobs hash their content, trees
and commits hash their JSON, and the store keeps every object under a kind tag. -/
namespace GitAgentic

inductive ObjectKind where
  | blob | tree | segment | commit
  deriving DecidableEq, Repr

structure TypedRef (Hash : Type) where
  kind : ObjectKind
  hash : Hash
  deriving DecidableEq

structure Blob where
  bytes : Bytes
  deriving DecidableEq

/-- A sorted map from name to typed reference. -/
structure Tree (Hash : Type) where
  entries : BTreeMap String (TypedRef Hash)
  deriving DecidableEq

structure Attestation where
  issuer : String
  signature : Bytes
  deriving DecidableEq

structure Commit (Hash : Type) where
  parent : Option Hash
  author : String
  timestamp : Int
  message : String
  codeSha : Option String
  prompts : Option Hash
  tools : Option Hash
  model : Option Hash
  memorySnapshot : Option Hash
  schemaVersion : Option String
  intent : Option Hash
  plan : Option Hash
  transcript : Option Hash
  evals : Option Hash
  costCents : UInt32
  signatures : List Attestation
  peerUid : Option UInt32
  deriving DecidableEq

inductive Object (Hash : Type) where
  | blob (b : Blob)
  | tree (t : Tree Hash)
  | commit (c : Commit Hash)
  deriving DecidableEq

/- Writers. -/

def byteJson (b : UInt8) : Json := .number (.posInt b.toUInt64)

def bytesJson (bs : Bytes) : Json := .array (bs.map byteJson)

def u32Json (n : UInt32) : Json := .number (.posInt n.toUInt64)

def optionJson {α : Type} (write : α → Json) : Option α → Json
  | none => .null
  | some a => write a

def ObjectKind.name : ObjectKind → String
  | .blob => "blob"
  | .tree => "tree"
  | .segment => "segment"
  | .commit => "commit"

/- Readers. A struct is read from the members of an object: unknown names are
ignored, a repeated name is an error. -/

def readU8 : Json → Option UInt8
  | .number (.posInt n) => if n.toNat < 256 then some n.toUInt8 else none
  | _ => none

def readU32 : Json → Option UInt32
  | .number (.posInt n) => if n.toNat < 2 ^ 32 then some n.toUInt32 else none
  | _ => none

def readStr : Json → Option String
  | .string s => some s
  | _ => none

def readList {α : Type} (read : Json → Option α) : Json → Option (List α)
  | .array xs => xs.mapM read
  | _ => none

def readBytes : Json → Option Bytes := readList readU8

def readOption {α : Type} (read : Json → Option α) : Json → Option (Option α)
  | .null => some none
  | j => (read j).map some

def readKind : Json → Option ObjectKind
  | .string s =>
    if s = "blob" then some .blob
    else if s = "tree" then some .tree
    else if s = "segment" then some .segment
    else if s = "commit" then some .commit
    else none
  | _ => none

/-- `none` when the name is repeated, `some none` when it is missing. -/
def field (ms : List (String × Json)) (name : String) : Option (Option Json) :=
  match ms.filter (fun m => m.1 == name) with
  | [] => some none
  | [m] => some (some m.2)
  | _ => none

def required {α : Type} (read : Json → Option α) (ms : List (String × Json)) (name : String) :
    Option α := do
  match ← field ms name with
  | some j => read j
  | none => none

/-- A missing member takes the given value: `#[serde(default)]`, and `None` for an
optional field without it. -/
def defaulted {α : Type} (value : α) (read : Json → Option α) (ms : List (String × Json))
    (name : String) : Option α := do
  match ← field ms name with
  | some j => read j
  | none => some value

section

variable {Hash : Type} (P : Platform Hash)

def hashJson (h : Hash) : Json := bytesJson (P.asBytes h)

def readHash (j : Json) : Option Hash := do P.fromBytes (← readBytes j)

def TypedRef.toJson (r : TypedRef Hash) : Json :=
  .object [("kind", .string r.kind.name), ("hash", hashJson P r.hash)]

def TypedRef.fromJson : Json → Option (TypedRef Hash)
  | .object ms => do
    let kind ← required readKind ms "kind"
    let hash ← required (readHash P) ms "hash"
    some { kind, hash }
  | _ => none

def Attestation.toJson (a : Attestation) : Json :=
  .object [("issuer", .string a.issuer), ("signature", bytesJson a.signature)]

def Attestation.fromJson : Json → Option Attestation
  | .object ms => do
    let issuer ← required readStr ms "issuer"
    let signature ← required readBytes ms "signature"
    some { issuer, signature }
  | _ => none

def Blob.members (b : Blob) : List (String × Json) := [("bytes", bytesJson b.bytes)]

def Blob.fromMembers (ms : List (String × Json)) : Option Blob := do
  let bytes ← required readBytes ms "bytes"
  some { bytes }

def Tree.members (t : Tree Hash) : List (String × Json) :=
  [("entries", .object (t.entries.entries.map (fun e => (e.1, e.2.toJson P))))]

def readEntries : Json → Option (BTreeMap String (TypedRef Hash))
  | .object es => do
    let es ← es.mapM (fun e => do some (e.1, ← TypedRef.fromJson P e.2))
    some (BTreeMap.ofList es)
  | _ => none

def Tree.fromMembers (ms : List (String × Json)) : Option (Tree Hash) := do
  let entries ← required (readEntries P) ms "entries"
  some { entries }

/-- Fields in declaration order. -/
def Commit.members (c : Commit Hash) : List (String × Json) :=
  [("parent", optionJson (hashJson P) c.parent),
   ("author", .string c.author),
   ("timestamp", .string (P.rfc3339 c.timestamp)),
   ("message", .string c.message),
   ("code_sha", optionJson .string c.codeSha),
   ("prompts", optionJson (hashJson P) c.prompts),
   ("tools", optionJson (hashJson P) c.tools),
   ("model", optionJson (hashJson P) c.model),
   ("memory_snapshot", optionJson (hashJson P) c.memorySnapshot),
   ("schema_version", optionJson .string c.schemaVersion),
   ("intent", optionJson (hashJson P) c.intent),
   ("plan", optionJson (hashJson P) c.plan),
   ("transcript", optionJson (hashJson P) c.transcript),
   ("evals", optionJson (hashJson P) c.evals),
   ("cost_cents", u32Json c.costCents),
   ("signatures", .array (c.signatures.map Attestation.toJson)),
   ("peer_uid", optionJson u32Json c.peerUid)]

def readTime (j : Json) : Option Int := do P.parseRfc3339 (← readStr j)

def Commit.fromMembers (ms : List (String × Json)) : Option (Commit Hash) := do
  let parent ← defaulted none (readOption (readHash P)) ms "parent"
  let author ← required readStr ms "author"
  let timestamp ← required (readTime P) ms "timestamp"
  let message ← required readStr ms "message"
  let codeSha ← defaulted none (readOption readStr) ms "code_sha"
  let prompts ← defaulted none (readOption (readHash P)) ms "prompts"
  let tools ← defaulted none (readOption (readHash P)) ms "tools"
  let model ← defaulted none (readOption (readHash P)) ms "model"
  let memorySnapshot ← defaulted none (readOption (readHash P)) ms "memory_snapshot"
  let schemaVersion ← defaulted none (readOption readStr) ms "schema_version"
  let intent ← defaulted none (readOption (readHash P)) ms "intent"
  let plan ← defaulted none (readOption (readHash P)) ms "plan"
  let transcript ← defaulted none (readOption (readHash P)) ms "transcript"
  let evals ← defaulted none (readOption (readHash P)) ms "evals"
  let costCents ← defaulted 0 readU32 ms "cost_cents"
  let signatures ← defaulted [] (readList Attestation.fromJson) ms "signatures"
  let peerUid ← defaulted none (readOption readU32) ms "peer_uid"
  some { parent, author, timestamp, message, codeSha, prompts, tools, model, memorySnapshot,
         schemaVersion, intent, plan, transcript, evals, costCents, signatures, peerUid }

def Object.kind : Object Hash → ObjectKind
  | .blob _ => .blob
  | .tree _ => .tree
  | .commit _ => .commit

def Object.members : Object Hash → List (String × Json)
  | .blob b => b.members
  | .tree t => t.members P
  | .commit c => c.members P

/-- The stored form: the kind tag, then the fields of the object. -/
def Object.toJson (o : Object Hash) : Json :=
  .object (("kind", .string o.kind.name) :: o.members P)

def Object.fromJson : Json → Option (Object Hash)
  | .object ms => do
    let kind ← required readStr ms "kind"
    let rest := ms.filter (fun m => m.1 != "kind")
    if kind = "blob" then (Blob.fromMembers rest).map Object.blob
    else if kind = "tree" then (Tree.fromMembers P rest).map Object.tree
    else if kind = "commit" then (Commit.fromMembers P rest).map Object.commit
    else none
  | _ => none

/-- The bytes an object is hashed over: a blob's content as it is, the untagged
JSON of a tree or a commit. -/
def Object.preimage : Object Hash → Bytes
  | .blob b => b.bytes
  | .tree t => P.toVec (.object (t.members P))
  | .commit c => P.toVec (.object (c.members P))

def Object.hash (o : Object Hash) : Hash := P.of (o.preimage P)

end

end GitAgentic
