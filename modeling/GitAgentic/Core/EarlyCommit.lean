import GitAgentic.Core.Store

/-! Commits written before some of the optional fields existed. The reader supplies
the defaults, but the address is checked against today's list of fields. -/
namespace GitAgentic

/-- The fields marked `#[serde(default)]`. -/
inductive DefaultField where
  | intent | plan | transcript | evals | costCents | signatures | peerUid
  deriving DecidableEq, Repr

namespace DefaultField

def name : DefaultField → String
  | .intent => "intent"
  | .plan => "plan"
  | .transcript => "transcript"
  | .evals => "evals"
  | .costCents => "cost_cents"
  | .signatures => "signatures"
  | .peerUid => "peer_uid"

def all : List DefaultField := [.intent, .plan, .transcript, .evals, .costCents, .signatures, .peerUid]

end DefaultField

/-- The member is written: it is not one of the missing fields. -/
def keeps (missing : DefaultField → Bool) (name : String) : Bool :=
  DefaultField.all.all (fun f => !(missing f && f.name == name))

theorem keeps_name (missing : DefaultField → Bool) (f : DefaultField) :
    keeps missing f.name = !missing f := by
  cases f <;> simp [keeps, DefaultField.all, DefaultField.name]

theorem field_filter (keep : String → Bool) (ms : List (String × Json)) (name : String) :
    field (ms.filter (fun m => keep m.1)) name =
      if keep name then field ms name else some none := by
  cases kept : keep name with
  | true =>
    have same : (ms.filter (fun m => keep m.1)).filter (fun m => m.1 == name) =
        ms.filter (fun m => m.1 == name) := by
      rw [List.filter_filter]
      refine List.filter_congr ?_
      intro m _
      by_cases h : m.1 = name <;> simp [h, kept]
    simp only [field, same, if_pos]
  | false =>
    have none : (ms.filter (fun m => keep m.1)).filter (fun m => m.1 == name) = [] := by
      rw [List.filter_filter]
      refine List.filter_eq_nil_iff.mpr ?_
      intro m _
      by_cases h : m.1 = name <;> simp [h, kept]
    simp [field, none]

theorem required_filter {α : Type} (read : Json → Option α) {keep : String → Bool}
    (ms : List (String × Json)) {name : String} (kept : keep name = true) :
    required read (ms.filter (fun m => keep m.1)) name = required read ms name := by
  simp only [required, field_filter, if_pos kept]

theorem defaulted_filter {α : Type} (value : α) (read : Json → Option α) (keep : String → Bool)
    (ms : List (String × Json)) (name : String) :
    defaulted value read (ms.filter (fun m => keep m.1)) name =
      if keep name then defaulted value read ms name else some value := by
  simp only [defaulted, field_filter]
  split <;> rfl

section

variable {Hash : Type} (P : Platform Hash)

def Commit.withDefaults (c : Commit Hash) (missing : DefaultField → Bool) : Commit Hash :=
  { c with
    intent := if missing .intent then none else c.intent
    plan := if missing .plan then none else c.plan
    transcript := if missing .transcript then none else c.transcript
    evals := if missing .evals then none else c.evals
    costCents := if missing .costCents then 0 else c.costCents
    signatures := if missing .signatures then [] else c.signatures
    peerUid := if missing .peerUid then none else c.peerUid }

def Commit.earlyMembers (c : Commit Hash) (missing : DefaultField → Bool) : List (String × Json) :=
  (c.members P).filter (fun m => keeps missing m.1)

theorem defaulted_early {α : Type} (value : α) (read : Json → Option α)
    (missing : DefaultField → Bool) (ms : List (String × Json)) (f : DefaultField) {a : α}
    (full : defaulted value read ms f.name = some a) :
    defaulted value read (ms.filter (fun m => keeps missing m.1)) f.name =
      some (if missing f then value else a) := by
  rw [defaulted_filter, keeps_name, full]
  cases missing f <;> rfl

theorem Commit.reads_early (c : Commit Hash) (missing : DefaultField → Bool) :
    (c.withDefaults missing).Reads P (c.earlyMembers P missing) := by
  have full := c.reads_members P
  have kept : ∀ name ∉ DefaultField.all.map DefaultField.name, keeps missing name = true := by
    intro name other
    simp only [keeps, List.all_eq_true]
    intro f mem
    have apart : f.name ≠ name := fun e => other (e ▸ List.mem_map_of_mem mem)
    simp [apart]
  have always : ∀ {α : Type} (value : α) (read : Json → Option α) (name : String),
      name ∉ DefaultField.all.map DefaultField.name →
      defaulted value read (c.earlyMembers P missing) name =
        defaulted value read (c.members P) name := by
    intro α value read name other
    rw [Commit.earlyMembers, defaulted_filter, if_pos (kept name other)]
  exact
    { parent := (always _ _ _ (by decide)).trans full.parent
      author := (required_filter _ _ (kept _ (by decide))).trans full.author
      timestamp := (required_filter _ _ (kept _ (by decide))).trans full.timestamp
      message := (required_filter _ _ (kept _ (by decide))).trans full.message
      codeSha := (always _ _ _ (by decide)).trans full.codeSha
      prompts := (always _ _ _ (by decide)).trans full.prompts
      tools := (always _ _ _ (by decide)).trans full.tools
      model := (always _ _ _ (by decide)).trans full.model
      memorySnapshot := (always _ _ _ (by decide)).trans full.memorySnapshot
      schemaVersion := (always _ _ _ (by decide)).trans full.schemaVersion
      intent := defaulted_early _ _ missing _ .intent full.intent
      plan := defaulted_early _ _ missing _ .plan full.plan
      transcript := defaulted_early _ _ missing _ .transcript full.transcript
      evals := defaulted_early _ _ missing _ .evals full.evals
      costCents := defaulted_early _ _ missing _ .costCents full.costCents
      signatures := defaulted_early _ _ missing _ .signatures full.signatures
      peerUid := defaulted_early _ _ missing _ .peerUid full.peerUid }

/-- The bytes an earlier version hashed. -/
def Commit.earlyPreimage (c : Commit Hash) (missing : DefaultField → Bool) : Bytes :=
  P.toVec (.object (c.earlyMembers P missing))

/-- The bytes an earlier version stored. -/
def Commit.earlyStored (c : Commit Hash) (missing : DefaultField → Bool) : Bytes :=
  P.toVec (.object (("kind", .string ObjectKind.commit.name) :: c.earlyMembers P missing))

theorem Commit.fromJson_early (c : Commit Hash) (missing : DefaultField → Bool) :
    (P.fromSlice (c.earlyStored P missing)).bind (Object.fromJson P) =
      some (.commit (c.withDefaults missing)) := by
  obtain ⟨untagged, rest⟩ := (Object.commit c).members_untagged P
  have none : (c.earlyMembers P missing).filter (fun m => m.1 == "kind") = [] := by
    rw [Commit.earlyMembers, List.filter_comm]
    exact congrArg (List.filter _) untagged
  have all : (c.earlyMembers P missing).filter (fun m => m.1 != "kind") =
      c.earlyMembers P missing := by
    rw [Commit.earlyMembers, List.filter_comm]
    exact congrArg (List.filter _) rest
  have kind : required readStr
      (("kind", Json.string ObjectKind.commit.name) :: c.earlyMembers P missing) "kind" =
        some ObjectKind.commit.name := by
    simp [required, field, none]
  rw [Commit.earlyStored, P.fromSlice_toVec, Option.bind_some]
  simp only [Object.fromJson, kind, Option.bind_eq_bind, Option.bind_some]
  rw [List.filter_cons_of_neg (by simp), all]
  simp [ObjectKind.name, Commit.fromMembers_of_reads P (c.reads_early P missing)]

theorem Commit.early_eq_today_iff (c : Commit Hash) (missing : DefaultField → Bool) :
    (c.withDefaults missing).members P = c.earlyMembers P missing ↔ ∀ f, missing f = false := by
  constructor
  · intro same f
    have count : (c.earlyMembers P missing).length = (c.members P).length := by
      rw [← same]
      rfl
    obtain ⟨value, mem⟩ : ∃ value, (f.name, value) ∈ c.members P := by
      cases f <;> simp [Commit.members, DefaultField.name]
    have kept := List.length_filter_eq_length_iff.mp count _ mem
    simpa [keeps_name] using kept
  · intro present
    have same : c.withDefaults missing = c := by
      simp [Commit.withDefaults, present]
    rw [same, Commit.earlyMembers, List.filter_eq_self.mpr]
    intro m _
    simp [keeps, present]

variable [DecidableEq Hash]

theorem get_early_error (files : Files) (c : Commit Hash) (missing : DefaultField → Bool)
    (holds : held P files (P.of (c.earlyPreimage P missing)) = some (c.earlyStored P missing))
    {f : DefaultField} (absent : missing f = true) :
    get P files (P.of (c.earlyPreimage P missing)) =
      .error (.integrityError (P.of (c.earlyPreimage P missing))
        ((Object.commit (c.withDefaults missing)).hash P)) := by
  have differ : (Object.commit (c.withDefaults missing)).hash P ≠
      P.of (c.earlyPreimage P missing) := by
    intro same
    have members := Json.object.inj (P.toVec_injective (P.of_injective same))
    have present := (c.early_eq_today_iff P missing).mp members f
    rw [absent] at present
    cases present
  rw [get_of_held P holds, c.fromJson_early]
  simp only [checkIntegrity, if_neg differ]
  rfl

/-- An object an earlier version stored is returned, with its missing fields at their
defaults, exactly when it misses none; otherwise its address does not match. -/
theorem get_early_iff (files : Files) (c : Commit Hash) (missing : DefaultField → Bool)
    (holds : held P files (P.of (c.earlyPreimage P missing)) = some (c.earlyStored P missing)) :
    get P files (P.of (c.earlyPreimage P missing)) = .ok (.commit (c.withDefaults missing)) ↔
      ∀ f, missing f = false := by
  rw [get_eq_ok_iff P holds, c.fromJson_early, ← c.early_eq_today_iff P missing]
  constructor
  · rintro ⟨_, same⟩
    exact Json.object.inj (P.toVec_injective (P.of_injective same))
  · intro same
    refine ⟨rfl, ?_⟩
    rw [Object.hash, Object.preimage, same]
    rfl

end

def plainCommit : Commit Bytes where
  parent := none
  author := "alice@example.com"
  timestamp := 0
  message := "test"
  codeSha := none
  prompts := none
  tools := none
  model := none
  memorySnapshot := none
  schemaVersion := none
  intent := none
  plan := none
  transcript := none
  evals := none
  costCents := 0
  signatures := []
  peerUid := none

/-- The plain commit as written before `peer_uid` existed, alone in a store. -/
def legacyFiles : Files :=
  let missing := fun f => f == .peerUid
  let P := Platform.sample
  writeAt P (fun _ => none) (pathFor P (P.of (plainCommit.earlyPreimage P missing)))
    (plainCommit.earlyStored P missing)

theorem get_early_iff_legacy :
    let P := Platform.sample
    let missing := fun f => f == DefaultField.peerUid
    get P legacyFiles (P.of (plainCommit.earlyPreimage P missing)) =
        .ok (.commit (plainCommit.withDefaults missing)) ↔ ∀ f, missing f = false :=
  get_early_iff Platform.sample legacyFiles plainCommit _ (held_writeAt _ _ _ _)

theorem early_not_always_returned :
    ¬ ∀ (files : Files) (c : Commit Bytes) (missing : DefaultField → Bool),
      let P := Platform.sample
      held P files (P.of (c.earlyPreimage P missing)) = some (c.earlyStored P missing) →
      get P files (P.of (c.earlyPreimage P missing)) = .ok (.commit (c.withDefaults missing)) := by
  intro always
  have legacy := always legacyFiles plainCommit _ (held_writeAt _ _ _ _)
  have refused := get_early_error Platform.sample legacyFiles plainCommit
    (fun f => f == .peerUid) (held_writeAt _ _ _ _) (f := .peerUid) rfl
  cases refused.symm.trans legacy

end GitAgentic
