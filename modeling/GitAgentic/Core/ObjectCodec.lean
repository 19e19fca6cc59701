import GitAgentic.Core.Object

/-! Reading an object back from what its writer produced. -/
namespace GitAgentic

theorem readU8_byteJson (b : UInt8) : readU8 (byteJson b) = some b := by
  have h := b.toNat_lt
  simp [readU8, byteJson, h]

theorem mapM_map_some {α β : Type} (read : β → Option α) (write : α → β)
    (inverse : ∀ a, read (write a) = some a) (as : List α) :
    (as.map write).mapM read = some as := by
  induction as with
  | nil => rfl
  | cons a as ih => simp [List.mapM_cons, inverse, ih]

theorem readList_map {α : Type} (read : Json → Option α) (write : α → Json)
    (inverse : ∀ a, read (write a) = some a) (as : List α) :
    readList read (.array (as.map write)) = some as :=
  mapM_map_some read write inverse as

@[simp] theorem readBytes_bytesJson (bs : Bytes) : readBytes (bytesJson bs) = some bs :=
  readList_map readU8 byteJson readU8_byteJson bs

@[simp] theorem readStr_string (s : String) : readStr (.string s) = some s := rfl

theorem readU32_u32Json (n : UInt32) : readU32 (u32Json n) = some n := by
  have h := n.toNat_lt
  simp [readU32, u32Json, h]

theorem readOption_optionJson {α : Type} (read : Json → Option α) (write : α → Json)
    (inverse : ∀ a, read (write a) = some a) (present : ∀ a, write a ≠ .null) (o : Option α) :
    readOption read (optionJson write o) = some o := by
  cases o with
  | none => rfl
  | some a =>
    have value := present a
    have back := inverse a
    cases e : write a <;> simp_all [optionJson, readOption]

@[simp] theorem readOption_string (o : Option String) :
    readOption readStr (optionJson .string o) = some o :=
  readOption_optionJson readStr .string readStr_string (by simp) o

@[simp] theorem readOption_u32 (o : Option UInt32) :
    readOption readU32 (optionJson u32Json o) = some o :=
  readOption_optionJson readU32 u32Json readU32_u32Json (by simp [u32Json]) o

@[simp] theorem readKind_name (k : ObjectKind) : readKind (.string k.name) = some k := by
  cases k <;> rfl

section

variable {Hash : Type} (P : Platform Hash)

@[simp] theorem readHash_hashJson (h : Hash) : readHash P (hashJson P h) = some h := by
  simp [readHash, hashJson, P.fromBytes_asBytes]

@[simp] theorem readOption_hash (o : Option Hash) :
    readOption (readHash P) (optionJson (hashJson P) o) = some o :=
  readOption_optionJson _ _ (readHash_hashJson P) (by simp [hashJson, bytesJson]) o

@[simp] theorem readTime_rfc3339 (t : Int) : readTime P (.string (P.rfc3339 t)) = some t := by
  simp [readTime, P.parse_rfc3339]

theorem TypedRef.fromJson_toJson (r : TypedRef Hash) : TypedRef.fromJson P (r.toJson P) = some r := by
  simp [TypedRef.fromJson, TypedRef.toJson, required, field]

theorem Attestation.fromJson_toJson (a : Attestation) : Attestation.fromJson a.toJson = some a := by
  simp [Attestation.fromJson, Attestation.toJson, required, field]

@[simp] theorem readList_attestations (as : List Attestation) :
    readList Attestation.fromJson (.array (as.map Attestation.toJson)) = some as :=
  readList_map _ _ Attestation.fromJson_toJson as

theorem Blob.fromMembers_members (b : Blob) : Blob.fromMembers b.members = some b := by
  simp [Blob.fromMembers, Blob.members, required, field]

theorem readEntries_entries (m : BTreeMap String (TypedRef Hash)) :
    readEntries P (.object (m.entries.map (fun e => (e.1, e.2.toJson P)))) = some m := by
  have back := mapM_map_some (fun e : String × Json => do some (e.1, ← TypedRef.fromJson P e.2))
    (fun e : String × TypedRef Hash => (e.1, e.2.toJson P))
    (by intro e; simp [TypedRef.fromJson_toJson]) m.entries
  simp only [readEntries]
  rw [back]
  exact congrArg some m.ofList_entries

theorem Tree.fromMembers_members (t : Tree Hash) : Tree.fromMembers P (t.members P) = some t := by
  simp [Tree.fromMembers, Tree.members, required, field, readEntries_entries]

/-- Every field of the commit is what the reader takes from the members. -/
structure Commit.Reads (c : Commit Hash) (ms : List (String × Json)) : Prop where
  parent : defaulted none (readOption (readHash P)) ms "parent" = some c.parent
  author : required readStr ms "author" = some c.author
  timestamp : required (readTime P) ms "timestamp" = some c.timestamp
  message : required readStr ms "message" = some c.message
  codeSha : defaulted none (readOption readStr) ms "code_sha" = some c.codeSha
  prompts : defaulted none (readOption (readHash P)) ms "prompts" = some c.prompts
  tools : defaulted none (readOption (readHash P)) ms "tools" = some c.tools
  model : defaulted none (readOption (readHash P)) ms "model" = some c.model
  memorySnapshot :
    defaulted none (readOption (readHash P)) ms "memory_snapshot" = some c.memorySnapshot
  schemaVersion : defaulted none (readOption readStr) ms "schema_version" = some c.schemaVersion
  intent : defaulted none (readOption (readHash P)) ms "intent" = some c.intent
  plan : defaulted none (readOption (readHash P)) ms "plan" = some c.plan
  transcript : defaulted none (readOption (readHash P)) ms "transcript" = some c.transcript
  evals : defaulted none (readOption (readHash P)) ms "evals" = some c.evals
  costCents : defaulted 0 readU32 ms "cost_cents" = some c.costCents
  signatures : defaulted [] (readList Attestation.fromJson) ms "signatures" = some c.signatures
  peerUid : defaulted none (readOption readU32) ms "peer_uid" = some c.peerUid

theorem Commit.fromMembers_of_reads {ms : List (String × Json)} {c : Commit Hash}
    (h : c.Reads P ms) : Commit.fromMembers P ms = some c := by
  simp [Commit.fromMembers, h.parent, h.author, h.timestamp, h.message, h.codeSha, h.prompts,
    h.tools, h.model, h.memorySnapshot, h.schemaVersion, h.intent, h.plan, h.transcript, h.evals,
    h.costCents, h.signatures, h.peerUid]

theorem Commit.reads_members (c : Commit Hash) : c.Reads P (c.members P) := by
  constructor <;> simp [required, defaulted, field, Commit.members, readU32_u32Json]

theorem Commit.fromMembers_members (c : Commit Hash) :
    Commit.fromMembers P (c.members P) = some c :=
  Commit.fromMembers_of_reads P (c.reads_members P)

theorem Object.members_untagged (o : Object Hash) :
    (o.members P).filter (fun m => m.1 == "kind") = [] ∧
      (o.members P).filter (fun m => m.1 != "kind") = o.members P := by
  cases o <;>
    simp [Object.members, Blob.members, Tree.members, Commit.members]

theorem Object.fromJson_toJson (o : Object Hash) : Object.fromJson P (o.toJson P) = some o := by
  obtain ⟨untagged, rest⟩ := o.members_untagged P
  have kind : required readStr (("kind", Json.string o.kind.name) :: o.members P) "kind" =
      some o.kind.name := by
    simp [required, field, untagged]
  simp only [Object.fromJson, Object.toJson, kind, Option.bind_eq_bind, Option.bind_some]
  rw [List.filter_cons_of_neg (by simp), rest]
  cases o with
  | blob b => simp [Object.kind, ObjectKind.name, Object.members, Blob.fromMembers_members]
  | tree t => simp [Object.kind, ObjectKind.name, Object.members, Tree.fromMembers_members]
  | commit c => simp [Object.kind, ObjectKind.name, Object.members, Commit.fromMembers_members]

theorem Object.preimage_inj {o o' : Object Hash} (kind : o.kind = o'.kind)
    (same : o.preimage P = o'.preimage P) : o = o' := by
  have untagged : ∀ ms ms' : List (String × Json),
      P.toVec (.object ms) = P.toVec (.object ms') → ms = ms' :=
    fun ms ms' h => Json.object.inj (P.toVec_injective h)
  cases o with
  | blob b => cases o' with
    | blob b' =>
      obtain ⟨bytes⟩ := b
      obtain ⟨bytes'⟩ := b'
      exact congrArg (fun x => Object.blob ⟨x⟩) same
    | tree t' | commit c' => cases kind
  | tree t => cases o' with
    | tree t' =>
      have h := t.fromMembers_members P
      rw [untagged _ _ same, t'.fromMembers_members P] at h
      rw [Option.some.inj h]
    | blob b' | commit c' => cases kind
  | commit c => cases o' with
    | commit c' =>
      have h := c.fromMembers_members P
      rw [untagged _ _ same, c'.fromMembers_members P] at h
      rw [Option.some.inj h]
    | blob b' | tree t' => cases kind

theorem mem_of_field {ms : List (String × Json)} {name : String} {j : Json}
    (h : field ms name = some (some j)) : (name, j) ∈ ms := by
  unfold field at h
  split at h
  · cases h
  · rename_i m single
    have mem : m ∈ ms.filter (fun m => m.1 == name) := by simp [single]
    obtain ⟨mem, key⟩ := List.mem_filter.mp mem
    cases h
    have key : m.1 = name := by simpa using key
    rw [← key]
    exact mem
  · cases h

theorem length_mapM {α β : Type} {read : α → Option β} {xs : List α} {ys : List β}
    (h : xs.mapM read = some ys) : ys.length = xs.length := by
  induction xs generalizing ys with
  | nil =>
    cases h
    rfl
  | cons x xs ih =>
    simp only [List.mapM_cons, Option.bind_eq_bind, Option.bind_eq_some_iff] at h
    obtain ⟨y, _, zs, rest, h⟩ := h
    cases h
    exact congrArg (· + 1) (ih rest)

theorem length_of_readList {α : Type} {read : Json → Option α} {j : Json} {as : List α}
    (h : readList read j = some as) : as.length < j.nodes := by
  cases j with
  | array xs =>
    have same := length_mapM h
    have bound := Json.length_le_nodesElems xs
    simp only [Json.nodes]
    omega
  | _ => cases h

theorem nodes_of_blob {j : Json} {b : Blob} (h : Object.fromJson P j = some (.blob b)) :
    b.bytes.length < j.nodes := by
  cases j with
  | object ms =>
    simp only [Object.fromJson, Option.bind_eq_bind, Option.bind_eq_some_iff] at h
    obtain ⟨kind, _, h⟩ := h
    have read : Blob.fromMembers (ms.filter (fun m => m.1 != "kind")) = some b := by
      split at h
      · simpa using h
      · split at h <;> simp at h
    simp only [Blob.fromMembers, required, Option.bind_eq_bind, Option.bind_eq_some_iff] at read
    obtain ⟨bytes, ⟨found, hf, read⟩, hb⟩ := read
    cases Option.some.inj hb
    cases found with
    | none => cases read
    | some value =>
      have length := length_of_readList read
      have size := Json.nodes_le_nodesMembers (List.mem_of_mem_filter (mem_of_field hf))
      simp only [Json.nodes]
      omega
  | _ => cases h

theorem Object.fromJson_untagged (o : Object Hash) :
    Object.fromJson P (.object (o.members P)) = none := by
  simp [Object.fromJson, required, field, (o.members_untagged P).1]

end

end GitAgentic
