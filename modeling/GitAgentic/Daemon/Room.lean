import GitAgentic.Core.DiffPatch
import GitAgentic.Daemon.Failures
import GitAgentic.Daemon.Replies

/-! The room that each request needs for its reply: by the sizes of the texts that the request
brings, that the repository stores, and that the backend and the servers answer with. -/
namespace GitAgentic

/- How large the error of a failure is. -/

section

open Json

variable {Hash : Type} (P : Platform Hash) (w : Words)

/-- The texts of a failure, each in its quotes. -/
def DaemonError.size (e : DaemonError Hash) : Nat := ((e.chain P w).map quotedSize).sum

end

section

variable {Hash M : Type} [DecidableEq Hash] (P : Platform Hash)

/-- The commits from a commit back along the parents, as far as the limit goes. -/
inductive FirstParents (files : Files) : Nat → Option Hash → List (Hash × Commit Hash) → Prop
  | limit (start : Option Hash) : FirstParents files 0 start []
  | root (limit : Nat) : FirstParents files limit none []
  | next {limit : Nat} {h : Hash} {c : Commit Hash} {log : List (Hash × Commit Hash)}
      (found : get P files h = .ok (.commit c)) (rest : FirstParents files limit c.parent log) :
      FirstParents files (limit + 1) (some h) ((h, c) :: log)

inductive Breaks (files : Files) : Nat → Option Hash → Error Hash → Prop
  | unread {limit : Nat} {h : Hash} {e : Error Hash} (failed : get P files h = .error e) :
      Breaks files (limit + 1) (some h) e
  | other {limit : Nat} {h : Hash} {object : Object Hash} (found : get P files h = .ok object)
      (kind : object.kind ≠ .commit) :
      Breaks files (limit + 1) (some h) (.kindMismatch .commit object.kind)
  | later {limit : Nat} {h : Hash} {c : Commit Hash} {e : Error Hash}
      (found : get P files h = .ok (.commit c)) (rest : Breaks files limit c.parent e) :
      Breaks files (limit + 1) (some h) e

end

/- The room that a request needs for its reply. -/

section

open Json

variable {Hash M : Type} [DecidableEq Hash] (P : Platform Hash) (hmac : Hmac)
  (config : DaemonConfig Hash M) (w : Words) (codec : WireCodec)

/-- A request in a frame that was accepted. -/
structure Arrival where
  moment : Moment Hash
  bytes : Bytes
  small : bytes.length ≤ Framing.maxFrameBytes
  correlationId : String
  request : Wire.Request
  parsed : parseEnvelopeWithV0Shim codec P bytes = .ok (correlationId, request)

section

variable (moment : Moment Hash) (correlationId : String)

/-- Beside its texts an error takes its class and its code. -/
def FailureFits (e : DaemonError Hash) : Prop := Room correlationId (e.size P w + 108)

/-- On the write path: what is served, unless the daemon shuts down or the queue is full. -/
def WritePathFits (served : Prop) : Prop :=
  if moment.cancelledBefore then FailureFits P w correlationId shuttingDown
  else if moment.slot then
    if moment.cancelledMeanwhile then FailureFits P w correlationId shuttingDown else served
  else Room correlationId 130

structure ResolveFits (t : FileTree TextFile) (name : String) : Prop where
  found : ∀ h, Refs.Names P t name (some h) → Room correlationId (quotedSize (P.toHex h) + 30)
  unknown : Room correlationId (quotedSize ("ref not found: " ++ name) + 88)
  failed : ∀ e, Refs.NameFails P t name e →
    FailureFits P w correlationId (.context ("resolving ref " ++ name) (.core e))

/-- Each commit that is listed takes its hash, its message, its author and its time. -/
structure LogFits (files : Files) (t : FileTree TextFile) (limit : Nat) : Prop where
  empty : Room correlationId 27
  listed : ∀ head log, Refs.Names P t "HEAD" (some head) → FirstParents P files limit (some head) log →
    Room correlationId (entriesSize (log.map (LogEntry.of P)) + 25)
  broken : ∀ head e, Refs.Names P t "HEAD" (some head) →
    Breaks P files limit (some head) e ∨ 0 < limit ∧ e = .io → FailureFits P w correlationId (.core e)
  failed : ∀ e, Refs.NameFails P t "HEAD" e → FailureFits P w correlationId (.core e)

inductive EntriesAre (files : Files) : Option Hash → BTreeMap String (TypedRef Hash) → Prop
  | none : EntriesAre files none BTreeMap.empty
  | tree {h : Hash} {tree : Tree Hash} (found : get P files h = .ok (.tree tree)) :
      EntriesAre files (some h) tree.entries

/-- The names that one tree has and the other has not, or has with other content. -/
inductive ChangedNames (files : Files) : Option Hash → Option Hash → List String → Prop
  | same (h : Option Hash) : ChangedNames files h h []
  | trees {h k : Option Hash} {a b : BTreeMap String (TypedRef Hash)} (first : EntriesAre P files h a)
      (second : EntriesAre P files k b) : ChangedNames files h k
        ((Diff.allNames a b).filter (fun name => Diff.hashAt a name ≠ Diff.hashAt b name))

-- a sign and a space stand before each name
def namesSize (names : List String) : Nat := (names.map (fun name => quotedSize name + 3)).sum + 2

/-- What a commit has a diff read: itself, its trees and its model. -/
inductive Part (files : Files) (h : Hash) : Hash → Prop
  | own : Part files h h
  | part {c : Commit Hash} {part : Hash} (found : get P files h = .ok (.commit c))
      (mem : c.prompts = some part ∨ c.tools = some part ∨ c.model = some part) : Part files h part

inductive ReadFails (files : Files) (h : Hash) : Error Hash → Prop
  | unread {e : Error Hash} (failed : get P files h = .error e) : ReadFails files h e
  | other {object : Object Hash} (found : get P files h = .ok object) (expected : ObjectKind) :
      ReadFails files h (.kindMismatch expected object.kind)

structure DiffFits (files : Files) (h k : Hash) : Prop where
  changed : ∀ a b prompts tools, get P files h = .ok (.commit a) → get P files k = .ok (.commit b) →
    ChangedNames P files a.prompts b.prompts prompts → ChangedNames P files a.tools b.tools tools →
    Room correlationId (quotedSize (P.toHex h) + quotedSize (P.toHex k) + namesSize prompts +
      namesSize tools + 5 +
      quotedSize (memorySummary P (Diff.hashChange a.memorySnapshot b.memorySnapshot)) +
      quotedSize (schemaSummary (Diff.stringChange a.schemaVersion b.schemaVersion)) + 102)
  failed : ∀ part e, Part P files h part ∨ Part P files k part → ReadFails P files part e ∨ e = .io →
    FailureFits P w correlationId (.core e)

structure ComparisonFits (d : Daemon M) (source target : String) : Prop where
  listing : ∀ e, Refs.ListingFails P d.repo.agentic e → FailureFits P w correlationId (.core e)
  unparsed : ∀ name ∈ [source, target], ∀ e, Refs.isHexHash name = true →
    Refs.parseHash P name.toList = .error e → FailureFits P w correlationId (.core e)
  unknown : ∀ name ∈ [source, target], FailureFits P w correlationId (.text ("ref not found: " ++ name))
  known : ∀ h k, Refs.Names P d.repo.agentic source (some h) →
    Refs.Names P d.repo.agentic target (some k) → DiffFits P w correlationId d.repo.objects h k

def ObjectFits (files : Files) (hash : String) (h : Hash) : Prop :=
  (match get P files h with
  | .ok found =>
    if (found.preimage P).length > maxObjectBytes then
      Room correlationId (quotedSize (objectTooLarge P h (found.preimage P).length) + 92)
    else
      Room correlationId (quotedSize (P.toHex h) + quotedSize found.kind.name +
        quotedSize (codec.encodeBase64 (found.preimage P)) + 53)
  | .error e =>
    FailureFits P w correlationId (.context ("reading object " ++ hash) (.core e))) ∧
  FailureFits P w correlationId (.context ("reading object " ++ hash) (.core .io))

/- A commit. -/

/-- The manifest and the schema version of the memory, as the backend answers. -/
inductive MemoryIs (d : Daemon M) (input : CommitInput) : Option Hash → Option String → Prop
  | without (left : input.noMemory = true ∨ config.memory = none) : MemoryIs d input none none
  | taken {adapter : MemoryAdapter Hash M} {handle : SnapshotHandle Hash} {d' : Daemon M}
      (configured : config.memory = some adapter) (wanted : input.noMemory = false)
      (taken : ComesTo P config.store adapter.snapshot d (.ok handle) d') :
      MemoryIs d input (some (P.of (handle.manifest.toCanonicalBytes P))) (some handle.schemaVersion)

/-- What a commit stages: what `HEAD`, its branch, the memory and the tools say. -/
structure CommitStages (d : Daemon M) (input : CommitInput) (branch : String)
    (inputs : CommitInputs Hash) : Prop where
  head : ∃ head, Refs.HeadIs P d.repo.agentic head ∧ branch = Commit.branchOf input head
  content : ∃ parent memorySnapshot schemaVersion tools, Refs.TipIs P d.repo.agentic branch parent ∧
    MemoryIs P config d input memorySnapshot schemaVersion ∧
    Commit.fingerprintTools config.mcpServers moment.fingerprints = .ok tools ∧
    inputs = Commit.assembleInputs input parent memorySnapshot schemaVersion tools moment.peerUid
      config.exemptEntropyPrefixes

structure CommitFits (d : Daemon M) (input : CommitInput) : Prop where
  head : ∀ e, Refs.HeadFails P d.repo.agentic e →
    FailureFits P w correlationId (.context "reading HEAD ref before commit" (.core e))
  tip : ∀ head e, Refs.HeadIs P d.repo.agentic head →
    Refs.TipFails P d.repo.agentic (Commit.branchOf input head) e →
    FailureFits P w correlationId (.context ("reading branch ref " ++
      debugText (Commit.branchOf input head) ++ " before commit") (.core e))
  snapshot : ∀ adapter e d', config.memory = some adapter → input.noMemory = false →
    ComesTo P config.store adapter.snapshot d (.error e) d' →
    FailureFits P w correlationId (.context "taking memory snapshot" (.memory e))
  manifest : ∀ adapter handle d' e, config.memory = some adapter → input.noMemory = false →
    ComesTo P config.store adapter.snapshot d (.ok handle) d' →
    PutFails P config.store [(handle.manifest.toCanonicalBytes P, {})] e →
    FailureFits P w correlationId (.context "persisting segment manifest" (.core e))
  tools : ∀ e, Commit.fingerprintTools config.mcpServers moment.fingerprints = .error e →
    FailureFits P w correlationId e
  staging : ∀ branch inputs e, CommitStages P config moment d input branch inputs →
    PutFails P config.store inputs.scanned e ∨ Refs.TipFails P d.repo.agentic branch e →
    FailureFits P w correlationId (.context ("2PC staging on branch " ++ debugText branch) (.core e))
  done : ∀ branch inputs, CommitStages P config moment d input branch inputs →
    Room correlationId (quotedSize (P.toHex ((Object.commit (inputs.commit P moment.now)).hash P)) +
      quotedSize branch + 42)

/- A rollback. -/

structure TargetIs (d : Daemon M) (args : RollbackArgs) (h : Hash) (c : Commit Hash) : Prop where
  named : Refs.Names P d.repo.agentic args.target (some h)
  approved : Rollback.checkApproval P hmac config args h moment.peerUid moment.nowSeconds = .ok ()
  found : get P d.repo.objects h = .ok (.commit c)
  shaped : Rollback.validateTargetShape P c h = .ok ()

/-- The plan and the state once the schema is at the version. -/
inductive Reversed (d : Daemon M) (args : RollbackArgs) (adapter : MemoryAdapter Hash M)
    (targetSchema : String) : List String → Daemon M → Prop
  | already (live : adapter.currentSchemaVersion d.memory = .ok targetSchema) :
      Reversed d args adapter targetSchema
        ["schema already at " ++ targetSchema ++ " — no migrations needed"] d
  | dry {live : String} (current : adapter.currentSchemaVersion d.memory = .ok live)
      (dryRun : args.dryRun = true) : Reversed d args adapter targetSchema
        ["reverse schema migrations: " ++ live ++ " → " ++ targetSchema] d
  | undone {live : String} {names : List String} {steps : List MigrationStep} {d' : Daemon M}
      (current : adapter.currentSchemaVersion d.memory = .ok live)
      (pending : adapter.migrationsAfter targetSchema d.memory = .ok names)
      (loaded : Migrate.StepsAre d.repo.agentic names steps)
      (ran : ComesTo P config.store (adapter.applyReverseMigrations steps)
        { d with reversed := d.reversed ++ steps } (.ok ()) d') :
      Reversed d args adapter targetSchema
        ["reverse schema migrations: " ++ live ++ " → " ++ targetSchema] d'

structure ReverseFits (d : Daemon M) (args : RollbackArgs) (adapter : MemoryAdapter Hash M)
    (targetSchema : String) : Prop where
  live : ∀ e, adapter.currentSchemaVersion d.memory = .error e ∨ e = .sqlx →
    FailureFits P w correlationId (.context "reading live schema version" (.memory e))
  pending : ∀ live e, adapter.currentSchemaVersion d.memory = .ok live → live ≠ targetSchema →
    adapter.migrationsAfter targetSchema d.memory = .error e ∨ e = .sqlx →
    FailureFits P w correlationId (.context "querying pending reverse migrations" (.memory e))
  files : ∀ names e, adapter.migrationsAfter targetSchema d.memory = .ok names →
    Migrate.LoadFails config.agenticDir d.repo.agentic args.acceptDataLoss names e →
    FailureFits P w correlationId (.context "loading reverse migration files" e)
  reverse : ∀ names steps d' e, adapter.migrationsAfter targetSchema d.memory = .ok names →
    Migrate.StepsAre d.repo.agentic names steps → args.dryRun = false →
    ComesTo P config.store (adapter.applyReverseMigrations steps)
      { d with reversed := d.reversed ++ steps } (.error e) d' ∨ e = .sqlx →
    FailureFits P w correlationId (.context "running reverse migrations" (.memory e))

structure RestoreFits (d : Daemon M) (adapter : MemoryAdapter Hash M) (manifestHash : Hash)
    (targetSchema : String) : Prop where
  manifest : ∀ e, Rollback.ManifestFails P d.repo.objects manifestHash e → FailureFits P w correlationId e
  pause : ∀ e d', ComesTo P config.store adapter.beginRestore d (.error e) d' →
    FailureFits P w correlationId (.context "pausing data capture for restore window" (.memory e))
  restore : ∀ manifest d' d'' e, Rollback.ManifestIs P d.repo.objects manifestHash manifest →
    ComesTo P config.store adapter.beginRestore d (.ok ()) d' →
    ComesTo P config.store
      (adapter.restoreWithGuard { manifest, schemaVersion := targetSchema }) d' (.error e) d'' →
    FailureFits P w correlationId (.context "restoring memory snapshot" (.memory e))

structure MemoryFits (d : Daemon M) (args : RollbackArgs) (c : Commit Hash) : Prop where
  missing : config.memory = none → FailureFits P w correlationId
    (.text "target commit has a schema_version but no memory backend is attached")
  reverse : ∀ targetSchema adapter, c.schemaVersion = some targetSchema → config.memory = some adapter →
    ReverseFits P config w correlationId d args adapter targetSchema
  restore : ∀ targetSchema adapter plan d' manifestHash, c.schemaVersion = some targetSchema →
    config.memory = some adapter → Reversed P config d args adapter targetSchema plan d' →
    c.memorySnapshot = some manifestHash → args.dryRun = false →
    RestoreFits P config w correlationId d' adapter manifestHash targetSchema

inductive MemoryPlanned (d : Daemon M) (args : RollbackArgs) (c : Commit Hash) : List String → Prop
  | without (none_ : c.schemaVersion = none) : MemoryPlanned d args c
      ["no schema_version in target — skipping schema migration and memory restore"]
  | schema {targetSchema : String} {adapter : MemoryAdapter Hash M} {plan : List String} {d' : Daemon M}
      (version : c.schemaVersion = some targetSchema) (configured : config.memory = some adapter)
      (reversed : Reversed P config d args adapter targetSchema plan d')
      (none_ : c.memorySnapshot = none) : MemoryPlanned d args c
        (plan ++ ["no memory snapshot in target — skipping memory data restore"])
  | data {targetSchema : String} {adapter : MemoryAdapter Hash M} {plan : List String} {d' : Daemon M}
      {manifestHash : Hash} (version : c.schemaVersion = some targetSchema)
      (configured : config.memory = some adapter)
      (reversed : Reversed P config d args adapter targetSchema plan d')
      (snapshot : c.memorySnapshot = some manifestHash) : MemoryPlanned d args c
        (plan ++ ["restore memory from manifest " ++ P.short manifestHash])

def promptsPlan (c : Commit Hash) : List String :=
  match c.prompts with
  | none => ["no prompts in target — skipping prompts rewrite"]
  | some promptsHash => ["rewrite " ++ config.repoRoot ++ "/prompts from target prompts tree " ++
      P.short promptsHash]

structure Planned (d : Daemon M) (args : RollbackArgs) (h : Hash) (c : Commit Hash) (branch : String)
    (tip : Option Hash) (plan : List String) : Prop where
  target : TargetIs P hmac config moment d args h c
  head : Refs.HeadIs P d.repo.agentic (some (.branch branch))
  reads : Refs.TipIs P d.repo.agentic branch tip
  steps : ∃ memoryPlan, MemoryPlanned P config d args c memoryPlan ∧
    plan = Rollback.planOf P h c tip ++ memoryPlan ++ promptsPlan P config c ++ Rollback.followUps c

/-- What is recorded on top of the branch: the target's contents, as they are read back. -/
def Records (files : Files) (h : Hash) (c : Commit Hash) (tip : Option Hash)
    (inputs : CommitInputs Hash) : Prop :=
  ∃ prompts tools model, Rollback.TextsAre P files c.prompts prompts ∧
    Rollback.TextsAre P files c.tools tools ∧ Rollback.ModelIs P files c.model model ∧
    inputs = Rollback.recordInputs P config h c tip moment.peerUid prompts tools model

structure RecordFits (d : Daemon M) (files : Files) (h : Hash) (c : Commit Hash) (branch : String)
    (tip : Option Hash) (plan : List String) : Prop where
  texts : ∀ hash e, c.prompts = some hash ∨ c.tools = some hash → Rollback.TextsFail P files hash e →
    FailureFits P w correlationId e
  model : ∀ hash e, c.model = some hash → Rollback.ModelFails P files hash e →
    FailureFits P w correlationId e
  staging : ∀ inputs e, Records P config moment files h c tip inputs →
    PutFails P config.store inputs.scanned e ∨ Refs.TipFails P d.repo.agentic branch e →
    FailureFits P w correlationId (.context "forward-recording rollback commit" (.core e))
  done : ∀ inputs, Records P config moment files h c tip inputs →
    Room correlationId (stringsSize (plan ++ ["forward-recorded rollback as " ++
        P.short ((Object.commit (inputs.commit P moment.now)).hash P) ++ " on " ++ branch]) + 4 +
      quotedSize (P.toHex ((Object.commit (inputs.commit P moment.now)).hash P)) + 65)

structure RollbackFits (d : Daemon M) (args : RollbackArgs) : Prop where
  unresolved : ∀ e, Refs.NameFails P d.repo.agentic args.target e → FailureFits P w correlationId (.core e)
  unknown : FailureFits P w correlationId (.text ("ref not found: " ++ args.target))
  refused : ∀ h e, Refs.Names P d.repo.agentic args.target (some h) →
    Rollback.checkApproval P hmac config args h moment.peerUid moment.nowSeconds = .error e →
    FailureFits P w correlationId e
  unread : ∀ h e, Refs.Names P d.repo.agentic args.target (some h) →
    Rollback.LoadFails P d.repo.objects "commit" .commit h e → FailureFits P w correlationId e
  misshapen : ∀ h c e, Refs.Names P d.repo.agentic args.target (some h) →
    get P d.repo.objects h = .ok (.commit c) → Rollback.validateTargetShape P c h = .error e →
    FailureFits P w correlationId e
  head : ∀ e, Refs.HeadFails P d.repo.agentic e → FailureFits P w correlationId (.core e)
  detached : FailureFits P w correlationId
    (.text "rollback from a detached HEAD is not supported (Chunk C+1)")
  noHead : FailureFits P w correlationId
    (.text "repo has no HEAD; commit something before rolling back")
  tip : ∀ branch e, Refs.HeadIs P d.repo.agentic (some (.branch branch)) →
    Refs.TipFails P d.repo.agentic branch e → FailureFits P w correlationId (.core e)
  memory : ∀ h c, TargetIs P hmac config moment d args h c → MemoryFits P config w correlationId d args c
  prompts : ∀ h c hash d' e, TargetIs P hmac config moment d args h c → args.dryRun = false →
    c.prompts = some hash → Fed P d d' →
    Rollback.RestoreFails config.repoRoot P d'.repo.objects d'.work hash e →
    FailureFits P w correlationId e
  planned : ∀ h c branch tip plan, Planned P hmac config moment d args h c branch tip plan →
    args.dryRun = true → Room correlationId (stringsSize plan + 74)
  record : ∀ h c branch tip plan d', Planned P hmac config moment d args h c branch tip plan →
    args.dryRun = false → Fed P d d' →
    RecordFits P config w moment correlationId d d'.repo.objects h c branch tip plan

def RequestFits (d : Daemon M) : Wire.Request → Prop
  | .ping => Room correlationId 15
  | .resolveRef name => ResolveFits P w correlationId d.repo.agentic name
  | .commit input => WritePathFits P w moment correlationId
      (CommitFits P config w moment correlationId d input)
  | .log limit => LogFits P w correlationId d.repo.objects d.repo.agentic limit
  | .diff source target =>
    if moment.slot then ComparisonFits P w correlationId d source target else Room correlationId 130
  | .readObject hash =>
    match parseObjectHash P hash with
    | .ok h => ObjectFits P w codec correlationId d.repo.objects hash h
    | .error e => FailureFits P w correlationId (.context ("invalid hash: " ++ hash) e)
  | .rollback target dryRun acceptDataLoss approvalToken => WritePathFits P w moment correlationId
      (RollbackFits P hmac config w moment correlationId d
        { target, dryRun, acceptDataLoss, approvalToken })

end

variable {P codec}

/-- The reply has room for the texts it may carry. -/
def Arrival.Fits (d : Daemon M) (a : Arrival P codec) : Prop :=
  if a.moment.granted then RequestFits P hmac config w codec a.moment a.correlationId d a.request
  else Room a.correlationId 151

/-- Whatever fails meanwhile, there is a response, and its frame is written. -/
def Arrival.Delivered (d : Daemon M) (a : Arrival P codec) : Prop :=
  (answer P hmac config a.moment w a.request).Always d fun outcome _ =>
    ∃ response, outcome = .ok response ∧
      ∀ sent, (writeReply P codec a.correlationId response sent).1 = .ok ()

end

end GitAgentic
