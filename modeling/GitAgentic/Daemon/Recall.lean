import GitAgentic.Daemon.PromptRestore
import GitAgentic.Memory.InMemoryBackend

/-! The memory of an agent comes back. What a commit has recorded of it is restored by a rollback
to that commit, whatever has happened to the memory and to the store since. -/
namespace GitAgentic

/-- What is asked of a backend: of its own snapshots, a restore that succeeds brings back what was
there, and going on afterwards changes nothing. The store may be another one by then. -/
structure MemoryAdapter.Recalls {Hash M V : Type} [DecidableEq Hash] (P : Platform Hash)
    (adapter : MemoryAdapter Hash M) (view : M → V) : Prop where
  restores : ∀ (S S' : FsObjectStore Hash) (d d₁ e e₁ : Daemon M) (handle : SnapshotHandle Hash),
    (adapter.snapshot.toProgram P S).run d = (.ok handle, d₁) →
    ((adapter.restoreWithGuard handle).toProgram P S').run e = (.ok (), e₁) → view e₁.memory = view d.memory
  resumes : ∀ m, view (adapter.resume m) = view m

namespace InMemoryAdapter

variable {Hash : Type}

def seen (st : InMemoryState) : String × (String → List Value) := (st.schemaVersion, fun table => rowsOf table st)

theorem restoreWithGuard_version (P : Platform Hash) (getRaw : Hash → Except (Error Hash) Bytes)
    (target : SnapshotHandle Hash) (st : InMemoryState) :
    (restoreWithGuard P getRaw target st).2.schemaVersion = st.schemaVersion := by
  unfold restoreWithGuard
  split
  · rfl
  · split <;> rfl

theorem adapter_recalls [DecidableEq Hash] (P : Platform Hash) : (adapter P).Recalls P seen where
  restores := by
    intro S S' d d₁ e e₁ handle snapped restored
    obtain ⟨version, entries, _⟩ := snapshot_run snapped
    rw [restore_run] at restored
    obtain ⟨outcome, rfl⟩ := Prod.mk.inj restored
    have same : e.memory.schemaVersion = handle.schemaVersion := by
      by_contra other
      rw [restoreWithGuard, if_pos other] at outcome
      cases outcome
    -- the segments that were read are those that were put, by their hashes
    have read : ∀ t ∈ filled d.memory, getRaw P e.repo.objects ((segmentOf d.memory.schemaVersion t.1 t.2).hash P) =
        .ok ((segmentOf d.memory.schemaVersion t.1 t.2).toCanonicalBytes P) := by
      intro t mem
      rw [restoreWithGuard, if_neg (not_not_intro same)] at outcome
      cases rebuilt : rebuild P (getRaw P e.repo.objects) handle.manifest.entries ∅ with
      | error err =>
        rw [rebuilt] at outcome
        cases outcome
      | ok tables =>
        have listed : refIn P d.memory.schemaVersion t ∈ handle.manifest.entries := by
          rw [entries, Arrange.mem_arrange]
          exact List.mem_map_of_mem mem
        obtain ⟨bytes, found⟩ := read_of_rebuild rebuilt _ listed
        rw [show getRaw P e.repo.objects ((segmentOf d.memory.schemaVersion t.1 t.2).hash P) = _ from found]
        exact congrArg Except.ok (P.of_injective (getRaw_of_ok P found).2)
    obtain ⟨st, ran, rows⟩ := restore_read _ same entries read
    have version' : st.schemaVersion = e.memory.schemaVersion := by
      have kept := restoreWithGuard_version P (getRaw P e.repo.objects) handle e.memory
      rwa [ran] at kept
    rw [ran]
    exact Prod.ext (version'.trans (same.trans version)) (funext rows)
  resumes := fun _ => rfl

end InMemoryAdapter

theorem SegmentManifest.of_fromCanonicalBytes {Hash : Type} {P : Platform Hash} {m m' : SegmentManifest Hash}
    (decoded : fromCanonicalBytes P (m.toCanonicalBytes P) = .ok m') : m' = m := by
  rw [fromCanonicalBytes, toCanonicalBytes, P.fromSlice_toVec, Option.bind_some, m.fromJson_toJson] at decoded
  dsimp only at decoded
  cases valid : m.validateInvariants P with
  | error e =>
    rw [valid] at decoded
    cases decoded
  | ok _ =>
    rw [valid] at decoded
    cases decoded
    rfl

variable {Hash M V : Type} [DecidableEq Hash] {P : Platform Hash} {hmac : Hmac}
  {config config' : DaemonConfig Hash M} {adapter : MemoryAdapter Hash M} {view : M → V} {d d' : Daemon M}

namespace Commit

theorem snapshotMemory_run {snapshot : Option Hash × Option String} (backend : config.memory = some adapter)
    (ran : (snapshotMemory P config false).run d = (.ok snapshot, d')) :
    ∃ (handle : SnapshotHandle Hash) (d₁ : Daemon M),
      (adapter.snapshot.toProgram P config.store).run d = (.ok handle, d₁) ∧
      snapshot = (some (P.of (handle.manifest.toCanonicalBytes P)), some handle.schemaVersion) := by
  unfold snapshotMemory at ran
  rw [if_neg Bool.false_ne_true, backend] at ran
  obtain ⟨handle, d₁, taken, ran⟩ := Program.run_bind_eq_ok_iff.mp ran
  obtain ⟨hash, d₂, stored, ended⟩ := Program.run_bind_eq_ok_iff.mp ran
  cases ended
  refine ⟨handle, d₁, Program.run_mapError_eq_ok_iff.mp taken, ?_⟩
  have put := Program.run_mapError_eq_ok_iff.mp (Program.run_mapError_eq_ok_iff.mp stored)
  rw [run_onStore, run_putRawProgram] at put
  rcases putRaw_cases P config.store .tree (handle.manifest.toCanonicalBytes P) d₁.repo.objects with
    ⟨hits, refused⟩ | ⟨files, accepted, _⟩
  · rw [refused] at put
    cases put
  · rw [accepted] at put
    rw [← Except.ok.inj (congrArg Prod.fst put)]

theorem execute_recorded {input : CommitInput} {peerUid : Option UInt32}
    {fingerprints : List (Except (DaemonError Hash) Bytes)} {now : Int} {out : CommitOutput}
    (backend : config.memory = some adapter) (taking : input.noMemory = false)
    (ran : (executeWithNow P config input peerUid fingerprints now).run d = (.ok out, d')) :
    ∃ (handle : SnapshotHandle Hash) (d₁ : Daemon M) (inputs : CommitInputs Hash),
      (adapter.snapshot.toProgram P config.store).run d = (.ok handle, d₁) ∧
      inputs.memorySnapshot = some (P.of (handle.manifest.toCanonicalBytes P)) ∧
      inputs.schemaVersion = some handle.schemaVersion ∧
      out.commitHash = P.toHex ((Object.commit (inputs.commit P now)).hash P) := by
  obtain ⟨head, _, ran⟩ := (onDaemonRefs_still Refs.readHead_still).mapError.then_ok ran
  obtain ⟨parent, _, ran⟩ := (onDaemonRefs_still (Refs.readBranch_still _)).mapError.then_ok ran
  obtain ⟨snapshot, d₂, taken, ran⟩ := Program.run_bind_eq_ok_iff.mp ran
  rw [taking] at taken
  obtain ⟨handle, d₁, snapped, rfl⟩ := snapshotMemory_run backend taken
  obtain ⟨tools, d₃, _, ran⟩ := Program.run_bind_eq_ok_iff.mp ran
  obtain ⟨staged, d₄, stagedRan, ran⟩ := Program.run_bind_eq_ok_iff.mp ran
  obtain ⟨_, d₅, _, ended⟩ := Program.run_bind_eq_ok_iff.mp ran
  cases ended
  have committed := Program.run_mapError_eq_ok_iff.mp stagedRan
  rw [run_onRepository] at committed
  have address := (stageAndCommit_staged (Prod.ext (Rollback.core_ok (congrArg Prod.fst committed)) rfl)).address
  exact ⟨handle, d₁, _, snapped, rfl, rfl, congrArg P.toHex address⟩

end Commit

namespace Rollback

theorem loadManifest_run {m m' : SegmentManifest Hash}
    (ran : (loadManifest P (P.of (m.toCanonicalBytes P)) : DaemonProgram Hash M _).run d = (.ok m', d')) :
    m' = m := by
  unfold loadManifest at ran
  obtain ⟨bytes, read, ran⟩ := (readObjects_still _).then_ok ran
  rw [run_readObjects] at read
  have address := (getRaw_of_ok P (core_ok (congrArg Prod.fst read))).2
  rw [P.of_injective address] at ran
  have decoded := congrArg Prod.fst (Program.run_mapError_eq_ok_iff.mp ran)
  change (SegmentManifest.fromCanonicalBytes P (m.toCanonicalBytes P)).mapError DaemonError.manifest = .ok m' at decoded
  cases outcome : SegmentManifest.fromCanonicalBytes P (m.toCanonicalBytes P) with
  | error e =>
    rw [outcome] at decoded
    cases decoded
  | ok m'' =>
    rw [outcome] at decoded
    cases decoded
    exact SegmentManifest.of_fromCanonicalBytes outcome

theorem restoreMemory_run (recalls : adapter.Recalls P view) {S : FsObjectStore Hash} {d₀ d₁ : Daemon M}
    {handle : SnapshotHandle Hash} (snapped : (adapter.snapshot.toProgram P S).run d₀ = (.ok handle, d₁))
    (ran : (restoreMemory P config adapter (P.of (handle.manifest.toCanonicalBytes P))
      handle.schemaVersion).run d = (.ok (), d')) : view d'.memory = view d₀.memory := by
  obtain ⟨manifest, d₂, loaded, ran⟩ := Program.run_bind_eq_ok_iff.mp ran
  obtain rfl := loadManifest_run loaded
  obtain ⟨_, d₃, _, ran⟩ := Program.run_bind_eq_ok_iff.mp ran
  obtain ⟨restored, d₄, attempted, ended⟩ := Program.run_bind_eq_ok_iff.mp ran
  rw [Program.run_attempt] at attempted
  obtain ⟨outcome, moved⟩ := Prod.mk.inj attempted
  have both : (restored, { d₄ with memory := adapter.resume d₄.memory }) = (Except.ok (), d') := ended
  obtain ⟨done, rfl⟩ := Prod.mk.inj both
  show view (adapter.resume _) = _
  rw [recalls.resumes]
  have whole : (withContext "restoring memory snapshot" ((adapter.restoreWithGuard handle).toProgram P config.store)).run
      d₃ = (.ok (), d₄) := Prod.ext ((Except.ok.inj outcome).trans done) moved
  exact recalls.restores S config.store d₀ d₁ d₃ d₄ handle snapped (Program.run_mapError_eq_ok_iff.mp whole)

theorem memoryStep_run {args : RollbackArgs} {target : Commit Hash} {manifestHash : Hash} {version : String}
    {plan : List String} (backend : config.memory = some adapter) (schema : target.schemaVersion = some version)
    (snapshot : target.memorySnapshot = some manifestHash)
    (ran : (memoryStep P config args.live target).run d = (.ok plan, d')) :
    ∃ d₁, (restoreMemory P config adapter manifestHash version).run d₁ = (.ok (), d') := by
  unfold memoryStep at ran
  simp only [schema, backend] at ran
  obtain ⟨planned, d₁, _, ran⟩ := Program.run_bind_eq_ok_iff.mp ran
  simp only [snapshot] at ran
  obtain ⟨_, d₂, restored, ended⟩ := Program.run_bind_eq_ok_iff.mp ran
  cases ended
  exact ⟨d₁, restored⟩

theorem promptsStep_memory {args : RollbackArgs} {target : Commit Hash} {plan : List String}
    (ran : (promptsStep P config args.live target).run d = (.ok plan, d')) : d'.memory = d.memory := by
  cases named : target.prompts with
  | none =>
    unfold promptsStep at ran
    simp only [named] at ran
    cases ran
    rfl
  | some promptsHash =>
    rw [(restorePrompts_run (promptsStep_run named ran)).1]

end Rollback

/-- A commit takes the memory along. Whatever becomes of the memory, the branches and the store, also
when the daemon is configured anew: a rollback to that commit that succeeds leaves the memory as it was
when the commit was made. -/
theorem memory_recalled {d₀ d₁ : Daemon M} {input : CommitInput} {uid peerUid : Option UInt32}
    {fingerprints : List (Except (DaemonError Hash) Bytes)} {time now : Int} {nowSeconds : UInt64}
    {committed : CommitOutput} {args : RollbackArgs} {target : Hash} {out : RollbackOutput}
    (recalls : adapter.Recalls P view) (backend : config.memory = some adapter)
    (backend' : config'.memory = some adapter) (taking : input.noMemory = false)
    (made : (Commit.executeWithNow P config input uid fingerprints time).run d₀ = (.ok committed, d₁))
    (resolved : ((Refs.resolve P args.target).run d.repo.agentic).1 = .ok (some target))
    (same : P.toHex target = committed.commitHash)
    (ran : (Rollback.execute P hmac config' args.live peerUid nowSeconds now).run d = (.ok out, d')) :
    view d'.memory = view d₀.memory := by
  obtain ⟨handle, _, inputs, snapped, snapshot, schema, address⟩ := Commit.execute_recorded backend taking made
  obtain rfl : target = (Object.commit (inputs.commit P time)).hash P :=
    P.hex_injective (Platform.toList_ofList_inj (same.trans address))
  obtain ⟨_, _, _, _, _, d₂, d₃, remembered, rewritten, recorded⟩ := Rollback.execute_run resolved ran
  obtain ⟨_, restored⟩ := Rollback.memoryStep_run backend' schema snapshot remembered
  rw [Rollback.forwardRecord_repo recorded, Rollback.promptsStep_memory rewritten]
  exact Rollback.restoreMemory_run recalls snapped restored

/- A commit with a row in the memory, and a rollback when there are two. -/

namespace Recall

def remembering : DaemonConfig Bytes InMemoryState where
  store := .silent
  memory := some (InMemoryAdapter.adapter Platform.sample)
  mcpServers := []
  approvalKey := none
  exemptEntropyPrefixes := []
  repoRoot := "."
  agenticDir := "./.agentic"

def first : CommitInput where
  message := "m"
  author := none
  codeSha := none
  branch := none
  prompts := BTreeMap.empty
  mcpServers := []
  model := none
  noMemory := false

def note (text : String) : Value := .ofJson (.object [("note", .string text)])

def noted : InMemoryState := InMemoryAdapter.insertRows "notes" [note "a"] InMemoryAdapter.new

def segmentBytes : Bytes := (InMemoryAdapter.segmentOf "0.0.0" "notes" [note "a"]).toCanonicalBytes Platform.sample

def handle : SnapshotHandle Bytes where
  manifest := {
    schemaVersion := "0.0.0"
    entries := [InMemoryAdapter.refIn Platform.sample "0.0.0" ("notes", [note "a"])] }
  schemaVersion := "0.0.0"

def manifestBytes : Bytes := handle.manifest.toCanonicalBytes Platform.sample

def inputs : CommitInputs Bytes :=
  Commit.assembleInputs first none (some manifestBytes) (some "0.0.0") BTreeMap.empty none []

def commit : GitAgentic.Commit Bytes := inputs.commit Platform.sample 0

def commitHash : Bytes := (Object.commit commit).hash Platform.sample

def opened : Daemon InMemoryState where
  repo := { objects := fun _ => none, agentic := Refs.opened }
  work := FileTree.empty
  memory := noted
  reversed := []

theorem sortedTables_noted : InMemoryAdapter.sortedTables noted = [("notes", { rows := [note "a"] })] :=
  List.mergeSort_singleton _

theorem filled_noted : InMemoryAdapter.filled noted = [("notes", [note "a"])] := by
  rw [InMemoryAdapter.filled, sortedTables_noted]
  rfl

theorem put_accepted (kind : ObjectKind) (bytes : Bytes) (files : Files) : ∃ files',
    FsObjectStore.silent.putRaw Platform.sample kind bytes files = (.ok bytes, files') ∧
      slots Platform.sample files' = WriteOnce.put (slots Platform.sample files) bytes bytes := by
  have clean : FsObjectStore.silent.scanner.scan bytes = [] := Scanner.scanWith_silent bytes {}
  rcases putRaw_cases Platform.sample .silent kind bytes files with ⟨hits, refused⟩ | ok
  · rw [FsObjectStore.putRaw, if_neg (fun found => found.1 clean)] at refused
    cases refused
  · exact ok

theorem read_of_slot {files : Files} {bytes : Bytes} (slot : slots Platform.sample files bytes = some bytes) :
    getRaw Platform.sample files bytes = .ok bytes :=
  (getRaw_eq_ok_iff Platform.sample (held_of_slot Platform.sample slot)).mpr ⟨rfl, rfl⟩

/-- The segment, the manifest and the commit are stored. -/
structure Stored (files : Files) : Prop where
  segment : getRaw Platform.sample files segmentBytes = .ok segmentBytes
  manifest : getRaw Platform.sample files manifestBytes = .ok manifestBytes
  commit : Has Platform.sample files commitHash (.commit commit)

theorem first_snapshot {files : Files}
    (put : FsObjectStore.silent.putRaw Platform.sample .segment segmentBytes opened.repo.objects =
      (.ok segmentBytes, files)) :
    ((InMemoryAdapter.adapter Platform.sample).snapshot.toProgram Platform.sample .silent).run opened =
      (.ok handle, { opened with repo := { opened.repo with objects := files } }) := by
  have ran : (onStore (FsObjectStore.silent.putRawProgram Platform.sample .segment segmentBytes).attempt :
      DaemonProgram Bytes InMemoryState (Except (Error Bytes) Bytes)).run opened =
      (.ok (.ok segmentBytes), { opened with repo := { opened.repo with objects := files } }) := by
    rw [run_onStore, Program.run_attempt, run_putRawProgram, put]
  show ((InMemoryAdapter.putTables Platform.sample "0.0.0" (InMemoryAdapter.sortedTables noted) _).toProgram
    Platform.sample .silent).run opened = _
  rw [sortedTables_noted]
  exact Program.run_bind_of_ok ran

theorem first_made : ∃ files, Stored files ∧
    (Commit.executeWithNow Platform.sample remembering first none [] 0).run opened =
      (.ok { commitHash := Platform.sample.toHex commitHash, branch := "main" },
        { opened with repo := { objects := files, agentic := Refs.onMain Platform.sample commitHash } }) := by
  obtain ⟨files₁, put₁, slot₁⟩ := put_accepted .segment segmentBytes (fun _ => none)
  obtain ⟨files₂, put₂, slot₂⟩ := put_accepted .tree manifestBytes files₁
  have head : (Refs.readHead Platform.sample).run Refs.opened = (.ok none, Refs.opened) :=
    Prod.ext (by decide +kernel) (Refs.readHead_still.run _)
  have absent : (Refs.readBranch Platform.sample "main").run Refs.opened = (.ok none, Refs.opened) :=
    Prod.ext (by decide +kernel) ((Refs.readBranch_still "main").run _)
  have snapped : (Commit.snapshotMemory Platform.sample remembering false).run opened =
      (.ok (some manifestBytes, some "0.0.0"), { opened with repo := { opened.repo with objects := files₂ } }) := by
    have put : (onDaemonObjects (FsObjectStore.silent.putRawProgram Platform.sample .tree manifestBytes) :
        DaemonProgram Bytes InMemoryState Bytes).run { opened with repo := { opened.repo with objects := files₁ } } =
        (.ok manifestBytes, { opened with repo := { opened.repo with objects := files₂ } }) := by
      rw [onDaemonObjects, Program.run_mapError, run_onStore, run_putRawProgram, put₂]
      rfl
    refine (Program.run_bind_of_ok (Program.run_mapError_eq_ok_iff.mpr (first_snapshot put₁))).trans ?_
    exact Program.run_bind_of_ok (Program.run_mapError_eq_ok_iff.mpr put)
  obtain ⟨files, staged, puts⟩ := stageCommit_puts (FsObjectStore.silent_accepts inputs) 0 files₂
  have moved : (Refs.writeBranch Platform.sample "main" commitHash).run Refs.opened = (.ok (), _) :=
    outcome_of (by decide +kernel)
  have made : (Commit.executeWithNow Platform.sample remembering first none [] 0).run opened =
      (.ok { commitHash := Platform.sample.toHex commitHash, branch := "main" },
        { opened with repo := { objects := files, agentic := Refs.onMain Platform.sample commitHash } }) :=
    @Commit.run_execute_stages _ _ _ Platform.sample remembering opened
      { opened with repo := { opened.repo with objects := files₂ } } first none 0 none none _ _ _ files _
      rfl head absent snapped staged moved
  -- the segment, the manifest and the commit are of different addresses
  have apart : manifestBytes ≠ segmentBytes := by decide +kernel
  have commit₁ : (Object.commit commit).hash Platform.sample ≠ segmentBytes := by decide +kernel
  have commit₂ : (Object.commit commit).hash Platform.sample ≠ manifestBytes := by decide +kernel
  refine ⟨files, ⟨read_of_slot ?_, read_of_slot ?_, ?_⟩, made⟩
  · rw [puts, WriteOnce.puts_apply, slot₂, WriteOnce.put_apply, if_neg apart.symm, slot₁, WriteOnce.put_apply,
      if_pos rfl]
    rfl
  · rw [puts, WriteOnce.puts_apply, slot₂, WriteOnce.put_apply, if_pos rfl, slot₁, WriteOnce.put_apply, if_neg apart]
    rfl
  · refine has_of_puts puts (CommitInputs.commit_mem_objects inputs 0) (Widens.refl files) ?_
    intro compressed there
    have objects : inputs.objects Platform.sample 0 = [.commit commit] := rfl
    rw [puts, WriteOnce.puts_apply, slot₂, WriteOnce.put_apply, if_neg commit₂, slot₁, WriteOnce.put_apply,
      if_neg commit₁, objects] at there
    have hit : List.find? (fun w : Bytes × Bytes => decide (w.1 = (Object.commit commit).hash Platform.sample))
        [(Object.commit commit).write Platform.sample] = some ((Object.commit commit).write Platform.sample) :=
      List.find?_cons_of_pos (decide_eq_true rfl)
    rw [List.map_cons, List.map_nil, hit] at there
    exact (Option.some.inj there).symm

theorem moved : ((Refs.writeBranch Platform.sample "main" commitHash).run Refs.opened).1 = .ok () := by
  decide +kernel

def added : InMemoryState := InMemoryAdapter.insertRows "notes" [note "b"] noted

theorem added_restored {d : Daemon InMemoryState} (stored : Stored d.repo.objects) (there : d.memory = added) :
    ∃ plan memory, (Rollback.memoryStep Platform.sample remembering Rollback.toMain.live commit).run d =
      (.ok plan, { d with memory := memory }) := by
  have decoded : SegmentManifest.fromCanonicalBytes Platform.sample manifestBytes = .ok handle.manifest := by
    rw [manifestBytes, SegmentManifest.fromCanonicalBytes_iff]
    exact ⟨by decide, List.pairwise_singleton _ _⟩
  have loaded : (Rollback.loadManifest Platform.sample manifestBytes : DaemonProgram Bytes InMemoryState _).run d =
      (.ok handle.manifest, d) := by
    have read : (readObjects (fun files => getRaw Platform.sample files manifestBytes) :
        DaemonProgram Bytes InMemoryState _).run d = (.ok manifestBytes, d) := by
      rw [run_readObjects, stored.manifest]
      rfl
    refine (Program.run_bind_of_ok read).trans (Program.run_mapError_eq_ok_iff.mpr ?_)
    rw [decoded]
    rfl
  have planned : ∃ plan, (Rollback.reverseMigrations Platform.sample remembering
      (InMemoryAdapter.adapter Platform.sample) Rollback.toMain.live "0.0.0").run d = (.ok plan, d) := by
    unfold Rollback.reverseMigrations
    have version : (withContext "reading live schema version" (readMemory
        (InMemoryAdapter.adapter Platform.sample).currentSchemaVersion) : DaemonProgram Bytes InMemoryState String).run
        d = (.ok "0.0.0", d) := by
      rw [withContext, Program.run_mapError, readMemory, Program.run_read, there]
      rfl
    exact ⟨_, Program.run_bind_of_ok version⟩
  obtain ⟨memory, rebuilt, _⟩ : ∃ memory, InMemoryAdapter.restoreWithGuard Platform.sample
      (getRaw Platform.sample d.repo.objects) handle added = (.ok (), memory) ∧
      ∀ table, InMemoryAdapter.rowsOf table memory = InMemoryAdapter.rowsOf table noted := by
    have version : added.schemaVersion = handle.schemaVersion := rfl
    refine InMemoryAdapter.restore_read _ version (by rw [filled_noted]; rfl) ?_
    rw [filled_noted]
    intro t mem
    obtain rfl := List.mem_singleton.mp mem
    exact stored.segment
  have back : (Rollback.restoreMemory Platform.sample remembering (InMemoryAdapter.adapter Platform.sample)
      manifestBytes "0.0.0").run d = (.ok (), { d with memory := memory }) := by
    have begun : (withContext "pausing data capture for restore window"
        ((InMemoryAdapter.adapter Platform.sample).beginRestore.toProgram Platform.sample .silent)).run d =
        (.ok (), d) := rfl
    have restored : (withContext "restoring memory snapshot" (((InMemoryAdapter.adapter Platform.sample).restoreWithGuard
        handle).toProgram Platform.sample remembering.store)).run d = (.ok (), { d with memory := memory }) := by
      rw [withContext, Program.run_mapError, InMemoryAdapter.restore_run, there, rebuilt]
      rfl
    refine (Program.run_bind_of_ok loaded).trans ((Program.run_bind_of_ok begun).trans ?_)
    refine (Program.run_bind_of_ok (Program.run_attempt _ d)).trans ?_
    rw [show { manifest := handle.manifest, schemaVersion := "0.0.0" } = handle from rfl, restored]
    rfl
  obtain ⟨plan, planned⟩ := planned
  refine ⟨plan ++ ["restore memory from manifest " ++ Platform.sample.short manifestBytes], memory,
    (Program.run_bind_of_ok planned).trans ?_⟩
  exact (Program.run_bind_of_ok back).trans rfl

theorem memory_recalled_first : ∃ (d d' : Daemon InMemoryState) (out : RollbackOutput),
    (Rollback.execute Platform.sample (fun _ m => m) remembering Rollback.toMain.live none 0 0).run d = (.ok out, d') ∧
      InMemoryAdapter.rowsOf "notes" d.memory = [note "a", note "b"] ∧
      InMemoryAdapter.rowsOf "notes" d'.memory = [note "a"] := by
  obtain ⟨files, stored, made⟩ := first_made
  let d : Daemon InMemoryState :=
    { opened with
      repo := { objects := files, agentic := Refs.onMain Platform.sample commitHash }
      memory := added }
  let refs := Refs.onMain Platform.sample commitHash
  have head : (Refs.readHead Platform.sample).run refs = (.ok (some (.branch "main")), refs) :=
    Prod.ext (by decide +kernel) (Refs.readHead_still.run _)
  obtain ⟨memoryPlan, memory, restored⟩ := added_restored (d := d) stored rfl
  let after : Daemon InMemoryState := { d with memory := memory }
  let again := Rollback.recordInputs Platform.sample remembering commitHash commit (some commitHash) none
    BTreeMap.empty BTreeMap.empty none
  obtain ⟨objects, staged, _⟩ := stageCommit_puts (FsObjectStore.silent_accepts again) 0 files
  have recorded : (Refs.writeBranch Platform.sample "main"
      ((Object.commit (again.commit Platform.sample 0)).hash Platform.sample)).run refs = (.ok (), _) :=
    outcome_of (by decide +kernel)
  have record : (Rollback.forwardRecord Platform.sample remembering commitHash commit "main" (some commitHash) none
      0).run after = (.ok _, _) := Rollback.run_forwardRecord rfl rfl rfl staged recorded
  have rolled : ∃ out, _ ∧ (Rollback.execute Platform.sample (fun _ m => m) remembering Rollback.toMain.live none 0
      0).run d = (.ok out, _) :=
    Rollback.run_execute_stages rfl rfl rfl (Refs.onMain_resolve moved) stored.commit head
      (Refs.onMain_tip moved) restored rfl record
  obtain ⟨out, _, ran⟩ := rolled
  have target : ((Refs.resolve Platform.sample Rollback.toMain.target).run d.repo.agentic).1 = .ok (some commitHash) :=
    congrArg Prod.fst (Refs.onMain_resolve moved)
  have backend : remembering.memory = some (InMemoryAdapter.adapter Platform.sample) := rfl
  have same := memory_recalled (InMemoryAdapter.adapter_recalls Platform.sample) backend backend rfl made target
    (Eq.refl (Platform.sample.toHex commitHash)) ran
  have before : InMemoryAdapter.rowsOf "notes" added = [note "a", note "b"] := by decide +kernel
  have then_ : InMemoryAdapter.rowsOf "notes" noted = [note "a"] := by decide +kernel
  exact ⟨d, _, out, ran, before, (congrFun (congrArg Prod.snd same) "notes").trans then_⟩

end Recall

end GitAgentic
