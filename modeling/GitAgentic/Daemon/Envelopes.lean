import GitAgentic.Daemon.Wire
import GitAgentic.Core.ObjectCodec

/-! Envelopes as clients write them, version 0 and version 1, and what the daemon reads
back: both versions carry the same requests, and an envelope that is refused is refused
under its own correlation id. -/
namespace GitAgentic

/- Writers: a request carries its tag first, then its fields in the order of the type. -/

def usizeJson (n : Nat) : Json := .number (.posInt (UInt64.ofNat n))

def btreeMapJson {α : Type} (write : α → Json) (m : BTreeMap String α) : Json :=
  .object (m.entries.map (fun e => (e.1, write e.2)))

def CommitInputV0.members (i : CommitInputV0) : List (String × Json) :=
  [("message", .string i.message), ("author", optionJson .string i.author),
    ("code_sha", optionJson .string i.codeSha), ("branch", optionJson .string i.branch),
    ("prompts", btreeMapJson .string i.prompts),
    ("mcp_servers", .array (i.mcpServers.map .string)), ("model", optionJson .string i.model),
    ("no_memory", .bool i.noMemory)]

def RequestV0.op : RequestV0 → String
  | .ping => "ping"
  | .commit _ => "commit"
  | .log _ => "log"
  | .diff _ _ => "diff"
  | .rollback _ _ _ => "rollback"
  | .resolveRef _ => "resolve_ref"
  | .readObject _ => "read_object"

def RequestV0.members : RequestV0 → List (String × Json)
  | .ping => []
  | .commit input => input.members
  | .log limit => [("limit", usizeJson limit)]
  | .diff source target => [("from", .string source), ("to", .string target)]
  | .rollback target dryRun acceptDataLoss => [("target", .string target),
      ("dry_run", .bool dryRun), ("accept_data_loss", .bool acceptDataLoss)]
  | .resolveRef name => [("name", .string name)]
  | .readObject hash => [("hash", .string hash)]

def RequestV0.toJson (r : RequestV0) : Json := .object (("op", .string r.op) :: r.members)

def Wire.Request.op : Wire.Request → String
  | .ping => "ping"
  | .commit _ => "commit"
  | .log _ => "log"
  | .diff _ _ => "diff"
  | .rollback _ _ _ _ => "rollback"
  | .resolveRef _ => "resolve_ref"
  | .readObject _ => "read_object"

/-- `Envelope<T>`; the versions before the field existed leave `protocol_version` out. -/
def envelopeJson (correlationId : String) (version : Option Nat) (payload : Json) : Json :=
  .object (("correlation_id", .string correlationId) ::
    ((version.map (fun v => ("protocol_version", usizeJson v))).toList ++ [("payload", payload)]))

/-- A `limit` is a `usize`. -/
def Wire.Request.Fits : Wire.Request → Prop
  | .log limit => limit < 2 ^ 64
  | _ => True

def RequestV0.Fits (r : RequestV0) : Prop := r.into.Fits

section

variable (codec : WireCodec)

def base64Json (bytes : Bytes) : Json := .string (codec.encodeBase64 bytes)

def CommitInput.members (i : CommitInput) : List (String × Json) :=
  [("message", .string i.message), ("author", optionJson .string i.author),
    ("code_sha", optionJson .string i.codeSha), ("branch", optionJson .string i.branch),
    ("prompts", btreeMapJson (base64Json codec) i.prompts),
    ("mcp_servers", .array (i.mcpServers.map .string)), ("model", optionJson .string i.model),
    ("no_memory", .bool i.noMemory)]

def Wire.Request.members : Wire.Request → List (String × Json)
  | .ping => []
  | .commit input => input.members codec
  | .log limit => [("limit", usizeJson limit)]
  | .diff source target => [("from", .string source), ("to", .string target)]
  | .rollback target dryRun acceptDataLoss approvalToken => [("target", .string target),
      ("dry_run", .bool dryRun), ("accept_data_loss", .bool acceptDataLoss),
      ("approval_token", optionJson .string approvalToken)]
  | .resolveRef name => [("name", .string name)]
  | .readObject hash => [("hash", .string hash)]

def Wire.Request.toJson (r : Wire.Request) : Json :=
  .object (("op", .string r.op) :: r.members codec)

end

/- Reading back. -/

theorem readBTreeMap_btreeMapJson {α : Type} {read : Json → Option α} {write : α → Json}
    (inverse : ∀ a, read (write a) = some a) (m : BTreeMap String α) :
    readBTreeMap read (btreeMapJson write m) = some m := by
  have back := mapM_map_some (fun e : String × Json => do some (e.1, ← read e.2))
    (fun e : String × α => (e.1, write e.2)) (by intro e; simp [inverse]) m.entries
  simp only [readBTreeMap, btreeMapJson]
  rw [back]
  exact congrArg some m.ofList_entries

@[simp] theorem readBTreeMap_string (m : BTreeMap String String) :
    readBTreeMap readStr (btreeMapJson .string m) = some m :=
  readBTreeMap_btreeMapJson readStr_string m

@[simp] theorem readList_string (ss : List String) :
    readList readStr (.array (ss.map .string)) = some ss :=
  readList_map readStr .string readStr_string ss

@[simp] theorem readBool_bool (b : Bool) : readBool (.bool b) = some b := rfl

theorem readUsize_usizeJson {n : Nat} (h : n < 2 ^ 64) : readUsize (usizeJson n) = some n := by
  have value : (UInt64.ofNat n).toNat = n := UInt64.toNat_ofNat_of_lt' h
  simp only [readUsize, usizeJson, value]

@[simp] theorem Content.required_members {α : Type} (read : Json → Option α)
    (ms : List (String × Json)) (i : Nat) (name : String) :
    Content.required read (.members ms) i name = GitAgentic.required read ms name := rfl

@[simp] theorem Content.defaulted_members {α : Type} (value : α) (read : Json → Option α)
    (ms : List (String × Json)) (i : Nat) (name : String) :
    Content.defaulted value read (.members ms) i name = GitAgentic.defaulted value read ms name := rfl

@[simp] theorem Content.atMost_members (n : Nat) (ms : List (String × Json)) :
    Content.atMost n (.members ms) = some () := rfl

theorem readTagged_cons {tag op : String} {ms : List (String × Json)}
    (untagged : ∀ m ∈ ms, m.1 ≠ tag) :
    readTagged tag (.object ((tag, .string op) :: ms)) = some (op, .members ms) := by
  have none_ : ms.filter (fun m => m.1 == tag) = [] := by
    rw [List.filter_eq_nil_iff]
    exact fun m mem => by simpa using untagged m mem
  have all : ms.filter (fun m => m.1 != tag) = ms := by
    rw [List.filter_eq_self]
    exact fun m mem => by simpa using untagged m mem
  have named : required readStr ((tag, Json.string op) :: ms) tag = some op := by
    simp [required, field, none_]
  simp only [readTagged, named, Option.bind_eq_bind, Option.bind_some]
  rw [List.filter_cons_of_neg (by simp), all]

theorem CommitInputV0.fromContent_members (i : CommitInputV0) :
    CommitInputV0.fromContent (.members i.members) = some i := by
  simp [CommitInputV0.fromContent, CommitInputV0.members, required, defaulted, field]

theorem RequestV0.members_untagged (r : RequestV0) : ∀ m ∈ r.members, m.1 ≠ "op" := by
  cases r <;> simp [RequestV0.members, CommitInputV0.members]

theorem RequestV0.fromJson_toJson {r : RequestV0} (h : r.Fits) :
    RequestV0.fromJson r.toJson = some r := by
  simp only [RequestV0.fromJson, RequestV0.toJson, readTagged_cons r.members_untagged,
    Option.bind_eq_bind, Option.bind_some]
  cases r with
  | ping => rfl
  | commit input =>
    simp [RequestV0.op, RequestV0.members, CommitInputV0.fromContent_members]
  | log limit =>
    simp [RequestV0.op, RequestV0.members, required, field, readUsize_usizeJson h]
  | diff source target => simp [RequestV0.op, RequestV0.members, required, field]
  | rollback target dryRun acceptDataLoss =>
    simp [RequestV0.op, RequestV0.members, required, field]
  | resolveRef name => simp [RequestV0.op, RequestV0.members, required, field]
  | readObject hash => simp [RequestV0.op, RequestV0.members, required, field]

theorem RequestV0.fromJson_elements {r : RequestV0} (h : r.Fits) :
    RequestV0.fromJson (.array (.string r.op :: r.members.map Prod.snd)) = some r := by
  simp only [RequestV0.fromJson, readTagged, readStr_string, Option.bind_eq_bind, Option.bind_some]
  cases r with
  | ping => rfl
  | commit input =>
    simp [RequestV0.op, RequestV0.members, CommitInputV0.members, CommitInputV0.fromContent,
      Content.atMost, Content.required, Content.defaulted]
  | log limit =>
    simp [RequestV0.op, RequestV0.members, Content.atMost, Content.required, readUsize_usizeJson h]
  | diff source target =>
    simp [RequestV0.op, RequestV0.members, Content.atMost, Content.required]
  | rollback target dryRun acceptDataLoss =>
    simp [RequestV0.op, RequestV0.members, Content.atMost, Content.required]
  | resolveRef name => simp [RequestV0.op, RequestV0.members, Content.atMost, Content.required]
  | readObject hash => simp [RequestV0.op, RequestV0.members, Content.atMost, Content.required]

section

variable (codec : WireCodec)

@[simp] theorem readBTreeMap_base64 (m : BTreeMap String Bytes) :
    readBTreeMap (readBase64 codec) (btreeMapJson (base64Json codec) m) = some m := by
  refine readBTreeMap_btreeMapJson ?_ m
  intro bytes
  exact codec.decode_encode bytes

theorem CommitInput.fromContent_members (i : CommitInput) :
    CommitInput.fromContent codec (.members (i.members codec)) = some i := by
  simp [CommitInput.fromContent, CommitInput.members, required, defaulted, field]

theorem Wire.Request.members_untagged (r : Wire.Request) : ∀ m ∈ r.members codec, m.1 ≠ "op" := by
  cases r <;> simp [Wire.Request.members, CommitInput.members]

theorem Wire.Request.fromJson_toJson {r : Wire.Request} (h : r.Fits) :
    Wire.Request.fromJson codec (r.toJson codec) = some r := by
  simp only [Wire.Request.fromJson, Wire.Request.toJson, readTagged_cons (r.members_untagged codec),
    Option.bind_eq_bind, Option.bind_some]
  cases r with
  | ping => rfl
  | commit input =>
    simp [Wire.Request.op, Wire.Request.members, CommitInput.fromContent_members]
  | log limit =>
    simp [Wire.Request.op, Wire.Request.members, required, field, readUsize_usizeJson h]
  | diff source target => simp [Wire.Request.op, Wire.Request.members, required, field]
  | rollback target dryRun acceptDataLoss approvalToken =>
    simp [Wire.Request.op, Wire.Request.members, required, defaulted, field]
  | resolveRef name => simp [Wire.Request.op, Wire.Request.members, required, field]
  | readObject hash => simp [Wire.Request.op, Wire.Request.members, required, field]

theorem Wire.Request.fromJson_elements {r : Wire.Request} (h : r.Fits) :
    Wire.Request.fromJson codec (.array (.string r.op :: (r.members codec).map Prod.snd)) = some r := by
  simp only [Wire.Request.fromJson, readTagged, readStr_string, Option.bind_eq_bind, Option.bind_some]
  cases r with
  | ping => rfl
  | commit input =>
    simp [Wire.Request.op, Wire.Request.members, CommitInput.members, CommitInput.fromContent,
      Content.atMost, Content.required, Content.defaulted]
  | log limit =>
    simp [Wire.Request.op, Wire.Request.members, Content.atMost, Content.required, readUsize_usizeJson h]
  | diff source target =>
    simp [Wire.Request.op, Wire.Request.members, Content.atMost, Content.required]
  | rollback target dryRun acceptDataLoss approvalToken =>
    simp [Wire.Request.op, Wire.Request.members, Content.atMost, Content.required, Content.defaulted]
  | resolveRef name =>
    simp [Wire.Request.op, Wire.Request.members, Content.atMost, Content.required]
  | readObject hash =>
    simp [Wire.Request.op, Wire.Request.members, Content.atMost, Content.required]

end

/- Documents that every reader of the library takes: no floating point literal, and not deep. -/

/-- A member of a request holds an array or an object of scalars at the most. -/
def Json.Flat (j : Json) : Prop := j.depth ≤ 1 ∧ j.integral = true

@[simp] theorem Json.flat_string (s : String) : (Json.string s).Flat := ⟨Nat.zero_le 1, rfl⟩

@[simp] theorem Json.flat_bool (b : Bool) : (Json.bool b).Flat := ⟨Nat.zero_le 1, rfl⟩

@[simp] theorem Json.flat_usize (n : Nat) : (usizeJson n).Flat := ⟨Nat.zero_le 1, rfl⟩

@[simp] theorem Json.flat_option (s : Option String) : (optionJson .string s).Flat := by
  cases s <;> exact ⟨Nat.zero_le 1, rfl⟩

@[simp] theorem Json.flat_strings (ss : List String) : (Json.array (ss.map .string)).Flat := by
  refine ⟨Nat.succ_le_succ (Json.depthElems_le ?_), Json.integralElems_of ?_⟩
  · rintro _ mem
    obtain ⟨s, _, rfl⟩ := List.mem_map.mp mem
    exact Nat.le_refl 0
  · rintro _ mem
    obtain ⟨s, _, rfl⟩ := List.mem_map.mp mem
    rfl

theorem Json.flat_map {α : Type} {write : α → Json}
    (scalar : ∀ a, (write a).depth = 0 ∧ (write a).integral = true) (m : BTreeMap String α) :
    (btreeMapJson write m).Flat := by
  refine ⟨Nat.succ_le_succ (Json.depthMembers_le ?_), Json.integralMembers_of ?_⟩
  · rintro _ mem
    obtain ⟨e, _, rfl⟩ := List.mem_map.mp mem
    exact (scalar e.2).1.le
  · rintro _ mem
    obtain ⟨e, _, rfl⟩ := List.mem_map.mp mem
    exact (scalar e.2).2

@[simp] theorem Json.flat_texts (m : BTreeMap String String) : (btreeMapJson .string m).Flat :=
  Json.flat_map (fun _ => ⟨rfl, rfl⟩) m

@[simp] theorem Json.flat_base64 (codec : WireCodec) (m : BTreeMap String Bytes) :
    (btreeMapJson (base64Json codec) m).Flat := Json.flat_map (fun _ => ⟨rfl, rfl⟩) m

theorem RequestV0.members_flat (r : RequestV0) : ∀ m ∈ r.members, m.2.Flat := by
  cases r <;> simp [RequestV0.members, CommitInputV0.members]

theorem Wire.Request.members_flat (codec : WireCodec) (r : Wire.Request) :
    ∀ m ∈ r.members codec, m.2.Flat := by
  cases r <;> simp [Wire.Request.members, CommitInput.members]

/-- What the library reads back, and refuses when it is deeper. -/
def Json.Readable (j : Json) : Prop := j.integral = true ∧ j.depth ≤ Json.nestingLimit

theorem tagged_shallow {ms : List (String × Json)} (flat : ∀ m ∈ ms, m.2.Flat) (op : String) :
    (Json.object (("op", .string op) :: ms)).integral = true ∧
      (Json.object (("op", .string op) :: ms)).depth ≤ 2 := by
  refine ⟨Json.integralMembers_of ?_, Nat.succ_le_succ (Json.depthMembers_le ?_)⟩
  · exact List.forall_mem_cons.mpr ⟨rfl, fun m mem => (flat m mem).2⟩
  · exact List.forall_mem_cons.mpr ⟨Nat.zero_le 1, fun m mem => (flat m mem).1⟩

theorem envelopeJson_readable {payload : Json} (h : payload.integral = true ∧ payload.depth ≤ 2)
    (correlationId : String) (version : Option Nat) :
    (envelopeJson correlationId version payload).Readable := by
  obtain ⟨integral, shallow⟩ := h
  have limit : 2 + 1 ≤ Json.nestingLimit := by decide
  refine ⟨Json.integralMembers_of ?_, (Nat.succ_le_succ (Json.depthMembers_le ?_)).trans limit⟩
  · cases version <;> simp [integral, usizeJson, Json.integral, Json.isIntegral]
  · cases version <;> simp [shallow, usizeJson, Json.depth]

theorem RequestV0.readable (r : RequestV0) (correlationId : String) (version : Option Nat) :
    (envelopeJson correlationId version r.toJson).Readable :=
  envelopeJson_readable (tagged_shallow r.members_flat r.op) correlationId version

theorem Wire.Request.readable (codec : WireCodec) (r : Wire.Request) (correlationId : String)
    (version : Option Nat) : (envelopeJson correlationId version (r.toJson codec)).Readable :=
  envelopeJson_readable (tagged_shallow (r.members_flat codec) r.op) correlationId version

/- The two passes over an envelope. -/

theorem readU16_usizeJson {n : Nat} (h : n < 2 ^ 16) : readU16 (usizeJson n) = some n := by
  have value : (UInt64.ofNat n).toNat = n := UInt64.toNat_ofNat_of_lt' (h.trans (by decide))
  simp only [readU16, usizeJson, value, if_pos h]

theorem readEnvelope_envelopeJson {α : Type} {read : Json → Option α} {correlationId : String}
    {version : Option Nat} (small : ∀ v, version = some v → v < 2 ^ 16) (payload : Json) :
    readEnvelope read (envelopeJson correlationId version payload) = read payload := by
  cases version with
  | none => simp [readEnvelope, envelopeJson, required, defaulted, field]
  | some v =>
    simp [readEnvelope, envelopeJson, required, defaulted, field, readU16_usizeJson (small v rfl)]

theorem envelopeJson_correlationId (correlationId : String) (version : Option Nat) (payload : Json) :
    (Value.ofJson (envelopeJson correlationId version payload)).json.get? "correlation_id" =
      some (.string correlationId) := by
  refine Value.ofJson_get?_of_mem List.mem_cons_self ?_
  intro k mem
  cases version <;> simpa using mem

section

variable {Hash : Type} (P : Platform Hash)

theorem readVersion_envelopeJson (correlationId : String) {version : Option Nat}
    (small : ∀ v, version = some v → v < 2 ^ 16) (payload : Json) :
    readVersion P (Value.ofJson (envelopeJson correlationId version payload)).json =
      .ok (version.getD 0) := by
  cases version with
  | none =>
    have absent : (Value.ofJson (envelopeJson correlationId none payload)).json.get?
        "protocol_version" = none := Value.ofJson_get?_of_not_mem (by simp)
    unfold readVersion
    rw [absent]
    rfl
  | some v =>
    have present : (Value.ofJson (envelopeJson correlationId (some v) payload)).json.get?
        "protocol_version" = some (usizeJson v) := by
      refine Value.ofJson_get?_of_mem (j := usizeJson v) ?_ ?_
      · simp
      · simp
    have fits : v < 2 ^ 16 := small v rfl
    have value : (UInt64.ofNat v).toNat = v :=
      UInt64.toNat_ofNat_of_lt' (fits.trans (by decide))
    unfold readVersion
    rw [present]
    simp only [usizeJson, Number.asU64?, value, if_pos fits, Option.getD_some]

variable (codec : WireCodec)

theorem parseEnvelope_v0 {r : RequestV0} (fits : r.Fits) (correlationId : String)
    {version : Option Nat} (zero : version = none ∨ version = some 0) :
    parseEnvelopeWithV0Shim codec P (P.toVec (envelopeJson correlationId version r.toJson)) =
      .ok (correlationId, r.into) := by
  have small : ∀ v, version = some v → v < 2 ^ 16 := by
    rintro v rfl
    rcases zero with absent | zero
    · cases absent
    · cases zero
      decide
  have named := envelopeJson_correlationId correlationId version r.toJson
  have versioned := readVersion_envelopeJson P correlationId small r.toJson
  have request : readEnvelope RequestV0.fromJson (envelopeJson correlationId version r.toJson) =
      some r := (readEnvelope_envelopeJson small _).trans (RequestV0.fromJson_toJson fits)
  have first : version.getD 0 = 0 := by
    rcases zero with rfl | rfl
    · rfl
    · rfl
  obtain ⟨integral, shallow⟩ := r.readable correlationId version
  unfold parseEnvelopeWithV0Shim
  rw [Platform.toVec, codec.fromSlice_text P.f64Text _ integral shallow]
  simp only [named, versioned, request, first, Option.bind_some, Json.asStr?]
  rfl

theorem parseEnvelope_v1 {r : Wire.Request} (fits : r.Fits) (correlationId : String) :
    parseEnvelopeWithV0Shim codec P
        (P.toVec (envelopeJson correlationId (some protocolVersion) (r.toJson codec))) =
      .ok (correlationId, r) := by
  have small : ∀ v, some protocolVersion = some v → v < 2 ^ 16 := by
    rintro v ⟨⟩
    decide
  have named := envelopeJson_correlationId correlationId (some protocolVersion) (r.toJson codec)
  have versioned :=
    readVersion_envelopeJson P correlationId small (r.toJson codec)
  have request : readEnvelope (Wire.Request.fromJson codec)
      (envelopeJson correlationId (some protocolVersion) (r.toJson codec)) = some r :=
    (readEnvelope_envelopeJson small _).trans (Wire.Request.fromJson_toJson codec fits)
  obtain ⟨integral, shallow⟩ := r.readable codec correlationId (some protocolVersion)
  unfold parseEnvelopeWithV0Shim
  rw [Platform.toVec, codec.fromSlice_text P.f64Text _ integral shallow]
  simp only [named, versioned, request, Option.bind_some, Json.asStr?]
  rfl

/-- The bytes are a JSON value, of those that the library reads, with this string as its
`correlation_id`. -/
def HasCorrelationId (bytes : Bytes) (correlationId : String) : Prop :=
  ∃ doc, codec.fromSlice bytes = some doc ∧
    (Value.ofJson doc).json.get? "correlation_id" = some (.string correlationId)

theorem asStr?_eq_some {j : Json} {s : String} (h : j.asStr? = some s) : j = .string s := by
  cases j with
  | string t =>
    cases h
    rfl
  | _ => cases h

theorem parseEnvelope_attributed {bytes : Bytes} {correlationId : String}
    (named : HasCorrelationId codec bytes correlationId) :
    (∃ request, parseEnvelopeWithV0Shim codec P bytes = .ok (correlationId, request)) ∨
      ∃ response, parseEnvelopeWithV0Shim codec P bytes =
        .error (.attributable correlationId response) := by
  obtain ⟨doc, read, member⟩ := named
  unfold parseEnvelopeWithV0Shim
  rw [read]
  simp only [member, Option.bind_some, Json.asStr?]
  cases readVersion P (Value.ofJson doc).json with
  | error response => exact .inr ⟨response, rfl⟩
  | ok version =>
    by_cases newer : version > protocolVersion
    · simp only [Except.mapError, bind, Except.bind, newer, if_true]
      exact .inr ⟨_, rfl⟩
    by_cases zero : version = 0
    · simp only [Except.mapError, bind, Except.bind, zero]
      cases readEnvelope RequestV0.fromJson doc with
      | some request => exact .inl ⟨request.into, rfl⟩
      | none => exact .inr ⟨_, rfl⟩
    · simp only [Except.mapError, bind, Except.bind, newer, zero, if_false]
      cases readEnvelope (Wire.Request.fromJson codec) doc with
      | some request => exact .inl ⟨request, rfl⟩
      | none => exact .inr ⟨_, rfl⟩

theorem parseEnvelope_unattributed {bytes : Bytes}
    (unnamed : ¬ ∃ correlationId, HasCorrelationId codec bytes correlationId) :
    ∃ message, parseEnvelopeWithV0Shim codec P bytes = .error (.unattributable message) := by
  unfold parseEnvelopeWithV0Shim
  cases read : codec.fromSlice bytes with
  | none => exact ⟨_, rfl⟩
  | some doc =>
    have missing : ((Value.ofJson doc).json.get? "correlation_id").bind Json.asStr? = none := by
      refine Option.eq_none_iff_forall_not_mem.mpr ?_
      intro correlationId found
      obtain ⟨j, member, string⟩ := Option.bind_eq_some_iff.mp found
      rw [asStr?_eq_some string] at member
      exact unnamed ⟨correlationId, doc, read, member⟩
    simp only [missing]
    exact ⟨_, rfl⟩

theorem parseEnvelope_unattributed_iff {doc : Json} (integral : doc.integral = true) :
    (∃ message, parseEnvelopeWithV0Shim codec P (P.toVec doc) = .error (.unattributable message)) ↔
      Json.nestingLimit < doc.depth ∨
        ¬ ∃ correlationId, (Value.ofJson doc).json.get? "correlation_id" = some (.string correlationId) := by
  rcases Nat.lt_or_ge Json.nestingLimit doc.depth with deep | shallow
  · have unread : codec.fromSlice (P.toVec doc) = none := codec.fromSlice_deep _ doc integral deep
    refine ⟨fun _ => .inl deep, fun _ => parseEnvelope_unattributed P codec ?_⟩
    rintro ⟨_, j, read, _⟩
    rw [unread] at read
    cases read
  · have read : codec.fromSlice (P.toVec doc) = some doc := codec.fromSlice_text _ doc integral shallow
    constructor
    · rintro ⟨message, refused⟩
      refine .inr ?_
      rintro ⟨correlationId, named⟩
      rcases parseEnvelope_attributed P codec ⟨doc, read, named⟩ with ⟨request, ok⟩ | ⟨response, error⟩
      · rw [refused] at ok
        cases ok
      · rw [refused] at error
        cases error
    · rintro (deep | unnamed)
      · exact absurd shallow (Nat.not_le_of_gt deep)
      · refine parseEnvelope_unattributed P codec ?_
        rintro ⟨correlationId, j, found, named⟩
        rw [read] at found
        cases found
        exact unnamed ⟨correlationId, named⟩

/-- A v0 request and the v1 encoding of it are the same request under the same id. A
document that the library reads is answered under its correlation id; what it does not read
it cannot attribute, also when it is only too deep. -/
theorem versions_agree :
    (∀ (correlationId : String) (r : { r : RequestV0 // r.Fits }),
      parseEnvelopeWithV0Shim codec P (P.toVec (envelopeJson correlationId none r.1.toJson)) =
          .ok (correlationId, r.1.into) ∧
        parseEnvelopeWithV0Shim codec P
            (P.toVec (envelopeJson correlationId (some 0) r.1.toJson)) =
          .ok (correlationId, r.1.into) ∧
        parseEnvelopeWithV0Shim codec P
            (P.toVec (envelopeJson correlationId (some protocolVersion) (r.1.into.toJson codec))) =
          .ok (correlationId, r.1.into)) ∧
      (∀ bytes : Bytes,
        ((∃ message, parseEnvelopeWithV0Shim codec P bytes = .error (.unattributable message)) ↔
          ¬ ∃ correlationId, HasCorrelationId codec bytes correlationId) ∧
        ∀ error correlationId, parseEnvelopeWithV0Shim codec P bytes = .error error →
          HasCorrelationId codec bytes correlationId →
          ∃ response, error = .attributable correlationId response) ∧
      ∀ doc : { doc : Json // doc.integral = true },
        (∃ message, parseEnvelopeWithV0Shim codec P (P.toVec doc.1) =
          .error (.unattributable message)) ↔
        Json.nestingLimit < doc.1.depth ∨ ¬ ∃ correlationId,
          (Value.ofJson doc.1).json.get? "correlation_id" = some (.string correlationId) := by
  refine ⟨?_, ?_, fun doc => parseEnvelope_unattributed_iff P codec doc.2⟩
  · rintro correlationId ⟨r, fits⟩
    exact ⟨parseEnvelope_v0 P codec fits correlationId (.inl rfl),
      parseEnvelope_v0 P codec fits correlationId (.inr rfl),
      parseEnvelope_v1 P codec fits correlationId⟩
  · intro bytes
    refine ⟨⟨?_, parseEnvelope_unattributed P codec⟩, ?_⟩
    · rintro ⟨message, refused⟩ ⟨correlationId, named⟩
      rcases parseEnvelope_attributed P codec named with ⟨request, ok⟩ | ⟨response, error⟩
      · rw [refused] at ok
        cases ok
      · rw [refused] at error
        cases error
    · intro error correlationId refused named
      rcases parseEnvelope_attributed P codec named with ⟨request, ok⟩ | ⟨response, attributed⟩
      · rw [refused] at ok
        cases ok
      · rw [refused] at attributed
        cases attributed
        exact ⟨response, rfl⟩

end

/-- The payload takes the document one level beyond what the library reads. -/
theorem not_always_attributed :
    ¬ ∀ (doc : Json) (correlationId : String),
      doc.get? "correlation_id" = some (.string correlationId) →
        ¬ ∃ message, parseEnvelopeWithV0Shim Daemon.hexCodec Platform.sample
          (Platform.sample.toVec doc) = .error (.unattributable message) := by
  intro attributed
  let doc : Json := .object [("correlation_id", .string "a"), ("payload", .brackets 126)]
  have integral : doc.integral = true := by
    simp [doc, Json.integral, Json.integralMembers, Json.integral_brackets]
  have deep : Json.nestingLimit < doc.depth := by
    have limit : Json.nestingLimit = 127 := rfl
    simp [doc, Json.depth, Json.depthMembers, Json.depth_brackets, limit]
  exact attributed doc "a" (by decide)
    ((parseEnvelope_unattributed_iff Platform.sample Daemon.hexCodec integral).mpr (.inl deep))

end GitAgentic
