import GitAgentic.Daemon.Additive

/-! The branches always point at whole commits: every object a commit refers to is stored
before the ref moves, and the ref moves in one rename. -/
namespace GitAgentic

variable {Hash M : Type} [DecidableEq Hash] {P : Platform Hash} {config : DaemonConfig Hash M}
  {faults : Prop}

/-- The refs serve the map and every branch points at a whole commit. -/
structure Intact (P : Platform Hash) (w : String → Option Hash) (d : Daemon M) : Prop where
  typed : (canonicalKinds P).Typed d.repo.objects
  refs : Refs.Refines P w d.repo.agentic
  whole : ∀ branch h, w branch = some h → Whole P d.repo.objects h

/-- Objects were added at most; no branch and not `HEAD` has changed. -/
structure Untouched (P : Platform Hash) (w : String → Option Hash) (d d' : Daemon M) : Prop where
  kept : Retains (canonicalKinds P) d.repo.objects d'.repo.objects
  confined : Refs.Confined d.repo.agentic d'.repo.agentic
  refs : Refs.Refines P w d'.repo.agentic

/-- The branch points at a new commit of the inputs, which is complete. Its parent is the
branch's old tip; a failed look at the branch may leave it without one. -/
structure Landed (faults : Prop) (P : Platform Hash) (w : String → Option Hash) (d d' : Daemon M)
    (branch : String) (inputs : CommitInputs Hash) (now : Int) : Prop where
  kept : Retains (canonicalKinds P) d.repo.objects d'.repo.objects
  refs : Refs.Refines P
    (Function.update w branch (some ((Object.commit (inputs.commit P now)).hash P))) d'.repo.agentic
  has : Has P d'.repo.objects ((Object.commit (inputs.commit P now)).hash P)
    (.commit (inputs.commit P now))
  complete : Complete P d'.repo.objects (inputs.commit P now)
  known : ∀ parent, inputs.parent = some parent → w branch = some parent
  current : ¬ faults → inputs.parent = w branch

theorem Intact.ahead {w : String → Option Hash} {d d' : Daemon M} (intact : Intact P w d)
    (ahead : Ahead P d d') : Intact P w d' where
  typed := ahead.typed
  refs := ahead.refs ▸ intact.refs
  whole branch h tip := (intact.whole branch h tip).mono ahead.kept.widens

theorem Intact.untouched {w : String → Option Hash} {d d' : Daemon M} (intact : Intact P w d)
    (h : Untouched P w d d') : Intact P w d' where
  typed := h.kept.typed
  refs := h.refs
  whole branch tip at_ := (intact.whole branch tip at_).mono h.kept.widens

theorem Ahead.untouched {w : String → Option Hash} {d d' : Daemon M} (intact : Intact P w d)
    (ahead : Ahead P d d') : Untouched P w d d' where
  kept := ahead.kept
  confined _ _ := by rw [ahead.refs]
  refs := ahead.refs ▸ intact.refs

theorem Landed.intact {w : String → Option Hash} {d d' : Daemon M} {branch : String}
    {inputs : CommitInputs Hash} {now : Int} (intact : Intact P w d)
    (h : Landed faults P w d d' branch inputs now) :
    Intact P (Function.update w branch (some ((Object.commit (inputs.commit P now)).hash P))) d' where
  typed := h.kept.typed
  refs := h.refs
  whole other tip at_ := by
    by_cases here : other = branch
    · subst here
      rw [Function.update_self] at at_
      cases at_
      cases parent : inputs.parent with
      | none => exact .first h.has h.complete parent
      | some p =>
        exact .next h.has h.complete parent
          ((intact.whole other p (h.known p parent)).mono h.kept.widens)
    · rw [Function.update_of_ne here] at at_
      exact (intact.whole other tip at_).mono h.kept.widens

namespace Adds

variable {d : Daemon M}

theorem snapshotMemory (typed : (canonicalKinds P).Typed d.repo.objects) (noMemory : Bool) :
    Adds faults P (fun pair d' => pair.1.isSome = pair.2.isSome ∧
      ∀ h ∈ pair.1, ∃ bytes, HasRaw P d'.repo.objects h bytes)
      (Commit.snapshotMemory P config noMemory) d := by
  unfold Commit.snapshotMemory
  split
  · exact value typed ⟨rfl, nofun⟩
  split
  · exact value typed ⟨rfl, nofun⟩
  · rename_i adapter _
    refine bind (context (toProgram adapter.snapshot typed)) (fun handle d' ahead _ => ?_)
    refine bind (context (onDaemonObjects (putRaw_safe config.store
      (kindOf_manifest P handle.manifest) (Retains.refl ahead.typed)))) (fun hash d'' ahead stored => ?_)
    refine value ahead.typed ⟨rfl, ?_⟩
    rintro h ⟨⟩
    exact ⟨_, stored.1 ▸ stored.2⟩

theorem loadTree (typed : (canonicalKinds P).Typed d.repo.objects) (hash : Hash) :
    Adds faults P (fun t d' => Has P d'.repo.objects hash (.tree t)) (Rollback.loadTree P hash) d := by
  refine bind (readObjects typed) (fun object d' ahead found => ?_)
  cases object with
  | tree t => exact value ahead.typed found
  | blob _ | commit _ => exact fail ahead.typed

theorem loadBlob (typed : (canonicalKinds P).Typed d.repo.objects) (hash : Hash) :
    Adds faults P (fun b d' => Has P d'.repo.objects hash (.blob b)) (Rollback.loadBlob P hash) d := by
  refine bind (readObjects typed) (fun object d' ahead found => ?_)
  cases object with
  | blob b => exact value ahead.typed found
  | tree _ | commit _ => exact fail ahead.typed

theorem loadCommit (typed : (canonicalKinds P).Typed d.repo.objects) (hash : Hash) :
    Adds faults P (fun c d' => Has P d'.repo.objects hash (.commit c)) (Rollback.loadCommit P hash) d := by
  refine bind (readObjects typed) (fun object d' ahead found => ?_)
  cases object with
  | commit c => exact value ahead.typed found
  | blob _ | tree _ => exact fail ahead.typed

omit [DecidableEq Hash] in
theorem resolveTarget (typed : (canonicalKinds P).Typed d.repo.objects) (target : String) :
    Adds faults P (fun hash _ => ¬ faults → ((Rollback.resolveTarget P target).run d).1 = .ok hash)
      (Rollback.resolveTarget P target : DaemonProgram Hash M _) d := by
  have still : (Rollback.resolveTarget P target : DaemonProgram Hash M _).Still := by
    refine Program.Still.bind (GitAgentic.onDaemonRefs_still (Refs.resolve_still target)) ?_
    intro found
    cases found with
    | none => trivial
    | some hash => trivial
  refine (still.exact d).mono ?_ ?_
  · rintro _ rfl
    exact Ahead.refl typed
  · rintro (e | hash) _ ⟨rfl, same⟩
    · exact ⟨Ahead.refl typed, trivial⟩
    · exact ⟨Ahead.refl typed, fun sound => (same sound).symm⟩

omit [DecidableEq Hash] in
theorem headBranch (typed : (canonicalKinds P).Typed d.repo.objects) :
    Adds faults P (fun _ _ => True) (Rollback.headBranch P : DaemonProgram Hash M _) d := by
  refine bind (onDaemonRefs_still typed Refs.readHead_still) (fun head d' ahead _ => ?_)
  rcases head with _ | (branch | hash)
  · exact fail ahead.typed
  · exact value ahead.typed trivial
  · exact fail ahead.typed

theorem loadManifest (typed : (canonicalKinds P).Typed d.repo.objects) (hash : Hash) :
    Adds faults P (fun _ d' => ∃ bytes, HasRaw P d'.repo.objects hash bytes)
      (Rollback.loadManifest P hash) d := by
  refine bind (readObjects typed) (fun bytes d' ahead found => context ?_)
  cases SegmentManifest.fromCanonicalBytes P bytes with
  | error e => exact fail ahead.typed
  | ok m => exact value ahead.typed ⟨bytes, found⟩

end Adds

def IsBlob (P : Platform Hash) (bytes : Bytes) : Prop :=
  (canonicalKinds P).kindOf (P.of bytes) = .blob

omit [DecidableEq Hash] in
theorem isBlob_of_none {P : Platform Hash} (bytes : Bytes) (absent : none = some bytes) :
    IsBlob P bytes := by
  cases absent

theorem isBlob_of_has {files : Files} (typed : (canonicalKinds P).Typed files) {hash : Hash} {b : Blob}
    (has : Has P files hash (.blob b)) : IsBlob P b.bytes := by
  have address : P.of b.bytes = hash := typed.hash_of_has has
  rw [IsBlob, address]
  exact typed.kind_of_has has

namespace Adds

variable {d : Daemon M}

theorem collect (typed : (canonicalKinds P).Typed d.repo.objects) (hash : Hash)
    (entries : List (String × TypedRef Hash)) (out : BTreeMap String Bytes)
    (blobs : ∀ e ∈ out.entries, IsBlob P e.2) :
    Adds faults P (fun m _ => ∀ e ∈ m.entries, IsBlob P e.2)
      (Rollback.treeToMap.collect P hash entries out : DaemonProgram Hash M _) d := by
  induction entries generalizing d out with
  | nil => exact value typed blobs
  | cons e rest ih =>
    obtain ⟨name, r⟩ := e
    unfold Rollback.treeToMap.collect
    split
    · exact fail typed
    · refine bind (loadBlob typed r.hash) (fun blob d' ahead has => ih ahead.typed _ ?_)
      intro e he
      rcases BTreeMap.mem_insert he with rfl | he
      · exact isBlob_of_has ahead.typed has
      · exact blobs e he

theorem readTextBlobs (typed : (canonicalKinds P).Typed d.repo.objects) (hash : Option Hash) :
    Adds faults P (fun m _ => ∀ e ∈ m.entries, IsBlob P e.2)
      (Rollback.readTextBlobs P hash : DaemonProgram Hash M _) d := by
  cases hash with
  | none => exact value typed nofun
  | some hash =>
    exact bind (loadTree typed hash) (fun tree d' ahead _ => collect ahead.typed _ _ _ nofun)

theorem readModelText (typed : (canonicalKinds P).Typed d.repo.objects) (target : Commit Hash) :
    Adds faults P (fun model _ => ∀ bytes ∈ modelBytes model, IsBlob P bytes)
      (Rollback.readModelText P target : DaemonProgram Hash M _) d := by
  unfold Rollback.readModelText
  split
  · exact value typed nofun
  · refine bind (loadBlob typed _) (fun blob d' ahead has => ?_)
    split
    · rename_i text decoded
      refine value ahead.typed ?_
      rintro bytes ⟨⟩
      show IsBlob P (utf8 text.toList)
      rw [utf8_of_fromUtf8 decoded]
      exact isBlob_of_has ahead.typed has
    · exact fail ahead.typed

theorem applySteps (typed : (canonicalKinds P).Typed d.repo.objects) (adapter : MemoryAdapter Hash M)
    (steps : List MigrationStep) :
    Adds faults P (fun _ _ => True) (Rollback.applySteps P config adapter steps) d :=
  context ⟨Ahead.refl typed, Program.Safe.mono (toProgram _ typed) (fun _ h => ⟨h.kept, h.refs⟩)
    (fun _ _ h => ⟨⟨h.1.kept, h.1.refs⟩, h.2⟩), fun _ => fail typed⟩

theorem reverseMigrations (typed : (canonicalKinds P).Typed d.repo.objects)
    (adapter : MemoryAdapter Hash M) (args : RollbackArgs) (targetSchema : String) :
    Adds faults P (fun _ _ => True) (Rollback.reverseMigrations P config adapter args targetSchema) d := by
  refine bind (context (readMemory typed)) (fun live d₁ ahead _ => ?_)
  dsimp only
  split
  · exact value ahead.typed trivial
  refine bind (context (readMemory ahead.typed)) (fun names d₂ ahead _ => ?_)
  refine bind (context (onAgentic_still ahead.typed (Migrate.loadSteps_still _ _ _)))
    (fun steps d₃ ahead _ => ?_)
  by_cases dry : args.dryRun = true
  · rw [if_pos dry]
    exact value ahead.typed trivial
  · rw [if_neg dry]
    exact bind (applySteps ahead.typed adapter steps) (fun _ d₄ ahead _ => value ahead.typed trivial)

theorem restoreMemory (typed : (canonicalKinds P).Typed d.repo.objects)
    (adapter : MemoryAdapter Hash M) (manifestHash : Hash) (targetSchema : String) :
    Adds faults P (fun _ d' => ∃ bytes, HasRaw P d'.repo.objects manifestHash bytes)
      (Rollback.restoreMemory P config adapter manifestHash targetSchema) d := by
  refine bind (loadManifest typed manifestHash) (fun manifest d₁ ahead stored => ?_)
  refine bind (context (toProgram adapter.beginRestore ahead.typed)) (fun _ d₂ ahead₂ _ => ?_)
  refine Program.Moves.bind Ahead.trans (Program.Moves.attempt
    (context (toProgram _ ahead₂.typed))) (fun restored d₃ ahead₃ _ => ?_)
  have still : ∃ bytes, HasRaw P d₃.repo.objects manifestHash bytes :=
    stored.imp (fun _ has => (has.mono ahead₂.kept.widens).mono ahead₃.kept.widens)
  have same : ∀ d', d'.repo = d₃.repo → Ahead P d₃ d' :=
    fun d' same => ⟨by rw [same]; exact Retains.refl ahead₃.typed, by rw [same]⟩
  cases restored with
  | ok _ => exact ⟨same _ rfl, ⟨same _ rfl, still⟩, fun _ => ⟨same _ rfl, still⟩⟩
  | error _ => exact ⟨same _ rfl, ⟨same _ rfl, trivial⟩, fun _ => ⟨same _ rfl, trivial⟩⟩

theorem memoryStep (typed : (canonicalKinds P).Typed d.repo.objects) (args : RollbackArgs)
    (target : Commit Hash) :
    Adds faults P (fun _ d' => args.dryRun = false → target.schemaVersion.isSome = true →
      ∀ h ∈ target.memorySnapshot, ∃ bytes, HasRaw P d'.repo.objects h bytes)
      (Rollback.memoryStep P config args target) d := by
  unfold Rollback.memoryStep
  split
  · rename_i absent
    refine value typed (fun _ present => ?_)
    rw [absent] at present
    cases present
  rename_i targetSchema _
  split
  · exact fail typed
  rename_i adapter _
  refine bind (reverseMigrations typed adapter args targetSchema) (fun planned d₁ ahead _ => ?_)
  dsimp only
  split
  · rename_i absent
    refine value ahead.typed (fun _ _ h named => ?_)
    rw [absent] at named
    cases named
  · rename_i manifestHash named
    by_cases dry : args.dryRun = true
    · rw [if_pos dry]
      refine value ahead.typed (fun wet => ?_)
      rw [dry] at wet
      cases wet
    · rw [if_neg dry]
      refine bind (restoreMemory ahead.typed adapter manifestHash targetSchema)
        (fun _ d₂ ahead stored => value ahead.typed (fun _ _ h hh => ?_))
      rw [named] at hh
      cases hh
      exact stored

theorem restorePrompts (typed : (canonicalKinds P).Typed d.repo.objects) (promptsHash : Hash) :
    Adds faults P (fun _ _ => True) (Rollback.restorePrompts config.repoRoot P promptsHash) d := by
  refine bind (onWork typed) (fun _ d₁ ahead _ => ?_)
  refine bind (loadTree ahead.typed promptsHash) (fun tree d₂ ahead _ => ?_)
  refine bind (forEach _ ahead.typed (fun e _ d₃ typed => ?_)) (fun _ d₄ ahead _ => onWork ahead.typed)
  refine bind (still typed trivial) (fun _ d₄ ahead _ => ?_)
  refine bind (onWork ahead.typed) (fun _ d₅ ahead _ => ?_)
  exact bind (loadBlob ahead.typed _) (fun _ d₆ ahead _ => onWork ahead.typed)

theorem promptsStep (typed : (canonicalKinds P).Typed d.repo.objects) (args : RollbackArgs)
    (target : Commit Hash) :
    Adds faults P (fun _ _ => True) (Rollback.promptsStep P config args target) d := by
  unfold Rollback.promptsStep
  split
  · exact value typed trivial
  rename_i promptsHash _
  by_cases dry : args.dryRun = true
  · rw [if_pos dry]
    exact value typed trivial
  rw [if_neg dry]
  refine bind (restorePrompts typed promptsHash) (fun _ d₁ ahead _ => value ahead.typed trivial)

end Adds

theorem Adds.readBranch {w : String → Option Hash} {d : Daemon M} (intact : Intact P w d)
    (name : String) :
    Adds faults P (fun found _ => (∀ hash, found = some hash → w name = some hash) ∧
      (¬ faults → found = w name))
      (GitAgentic.onDaemonRefs (Refs.readBranch P name) : DaemonProgram Hash M _) d :=
  Adds.onDaemonRefs intact.typed (Refs.readBranch_safe intact.refs name)

omit [DecidableEq Hash] in
theorem Commit.mem_fingerprintTools {servers : List McpServerSpec}
    {fingerprints : List (Except (DaemonError Hash) Bytes)} {tools : BTreeMap String Bytes}
    (h : Commit.fingerprintTools servers fingerprints = .ok tools) :
    ∀ e ∈ tools.entries, .ok e.2 ∈ fingerprints := by
  have folded : ∀ (es : List (McpServerSpec × Except (DaemonError Hash) Bytes))
      (out : BTreeMap String Bytes), (∀ e ∈ es, e.2 ∈ fingerprints) →
      (∀ e ∈ out.entries, .ok e.2 ∈ fingerprints) → ∀ tools,
      es.foldlM (fun tools e => do
        let manifest ← e.2.mapError
          (DaemonError.context ("fingerprinting MCP server " ++ e.1.name))
        return tools.insert e.1.name manifest) out = .ok tools →
      ∀ e ∈ tools.entries, .ok e.2 ∈ fingerprints := by
    intro es
    induction es with
    | nil =>
      rintro out _ held tools ⟨⟩
      exact held
    | cons e es ih =>
      obtain ⟨spec, answer⟩ := e
      intro out answers held tools h
      rw [List.foldlM_cons] at h
      cases answer with
      | error cause => cases h
      | ok manifest =>
        refine ih (out.insert spec.name manifest) (fun e he => answers e (List.mem_cons_of_mem _ he))
          ?_ tools h
        intro e he
        rcases BTreeMap.mem_insert he with rfl | he
        · exact answers _ List.mem_cons_self
        · exact held e he
  unfold Commit.fingerprintTools at h
  split at h
  · cases h
    exact nofun
  split at h
  · cases h
  · exact folded _ BTreeMap.empty (fun e he => (List.of_mem_zip he).2) nofun tools h

/-- Nothing has changed but new objects, or one branch has moved on. -/
def Progress (faults : Prop) (P : Platform Hash) (w : String → Option Hash) (d d' : Daemon M) : Prop :=
  Untouched P w d d' ∨ ∃ branch inputs now, Landed faults P w d d' branch inputs now

omit [DecidableEq Hash] in
theorem Untouched.after {w : String → Option Hash} {d d' d'' : Daemon M} (ahead : Ahead P d d')
    (h : Untouched P w d' d'') : Untouched P w d d'' where
  kept := ahead.kept.trans h.kept
  confined path outside := by rw [h.confined path outside, ahead.refs]
  refs := h.refs

theorem Landed.after {w : String → Option Hash} {d d' d'' : Daemon M} {branch : String}
    {inputs : CommitInputs Hash} {now : Int} (ahead : Ahead P d d')
    (h : Landed faults P w d' d'' branch inputs now) : Landed faults P w d d'' branch inputs now where
  kept := ahead.kept.trans h.kept
  refs := h.refs
  has := h.has
  complete := h.complete
  known := h.known
  current := h.current

theorem staged_safe {w : String → Option Hash} {d : Daemon M} (intact : Intact P w d)
    (S : FsObjectStore Hash) (message branch : String) (inputs : CommitInputs Hash) (now : Int)
    (blobs : ∀ bytes ∈ inputs.contents, IsBlob P bytes)
    (memory : ∀ h ∈ inputs.memorySnapshot, ∃ bytes, HasRaw P d.repo.objects h bytes)
    (known : ∀ parent, inputs.parent = some parent → w branch = some parent)
    (current : ¬ faults → inputs.parent = w branch) :
    (withContext message (onRepository (stageAndCommitWithNow P S branch inputs now))).Safe faults
      (Untouched P w d) (fun r d' => match r with
        | .ok out => out = { commitHash := (Object.commit (inputs.commit P now)).hash P, branch } ∧
          Landed faults P w d d' branch inputs now
        | .error _ => Untouched P w d d') d := by
  refine Program.Safe.mapError (Program.Safe.mapError (Program.Safe.focus (fun _ _ => rfl)
    (fun _ _ _ => rfl) (fun _ => rfl)
    ((stageAndCommit_safe S inputs now intact.typed intact.refs blobs).mono ?_ ?_)))
  · exact fun r ⟨kept, confined, refs⟩ => ⟨kept, confined, refs⟩
  · rintro (e | out) r ⟨kept, confined, ended⟩
    · exact ⟨kept, confined, ended⟩
    · obtain ⟨rfl, has, holds, _, refs⟩ := ended
      refine ⟨rfl, kept, refs, has, holds.complete (fun h named => ?_), known, current⟩
      exact (memory h named).imp (fun _ found => found.mono kept.widens)

/-- What a commit has done when it returns. -/
def Commit.Done (faults : Prop) (P : Platform Hash) (w : String → Option Hash) (d : Daemon M)
    (r : Except (DaemonError Hash) CommitOutput) (d' : Daemon M) : Prop :=
  match r with
  | .error _ => Untouched P w d d'
  | .ok out => ∃ branch inputs now, Landed faults P w d d' branch inputs now ∧
      out = { commitHash := P.toHex ((Object.commit (inputs.commit P now)).hash P), branch } ∧
      inputs.memorySnapshot.isSome = inputs.schemaVersion.isSome

/-- The branch points at a new commit, which has a memory snapshot if and only if it has a
schema version. -/
def Commit.Made (faults : Prop) (P : Platform Hash) (w : String → Option Hash) (d d' : Daemon M) :
    Prop :=
  ∃ branch inputs now, Landed faults P w d d' branch inputs now ∧
    inputs.memorySnapshot.isSome = inputs.schemaVersion.isSome

theorem Commit.Made.progress {w : String → Option Hash} {d d' : Daemon M}
    (h : Untouched P w d d' ∨ Commit.Made faults P w d d') : Progress faults P w d d' := by
  rcases h with untouched | ⟨branch, inputs, now, landed, _⟩
  · exact Or.inl untouched
  · exact Or.inr ⟨branch, inputs, now, landed⟩

theorem Landed.publishHead {w : String → Option Hash} {d d' : Daemon M} {branch : String}
    {inputs : CommitInputs Hash} {now : Int} (landed : Landed faults P w d d' branch inputs now)
    (needsHeadWrite : Bool) :
    (Commit.publishHead branch needsHeadWrite : DaemonProgram Hash M Unit).Safe faults
      (fun d'' => Landed faults P w d d'' branch inputs now)
      (fun r d'' => r = .ok () ∧ Landed faults P w d d'' branch inputs now) d' := by
  have moved : ∀ t, Refs.Refines P (Function.update w branch
      (some ((Object.commit (inputs.commit P now)).hash P))) t →
      Landed faults P w d { d' with repo := { d'.repo with agentic := t } } branch inputs now :=
    fun t refs => ⟨landed.kept, refs, landed.has, landed.complete, landed.known, landed.current⟩
  unfold Commit.publishHead
  split
  · refine Program.Safe.bind (Program.Safe.attempt (Program.Safe.mapError (Program.Safe.focus
      (fun _ _ => rfl) (fun _ _ _ => rfl) (fun _ => rfl)
      (onRefs_safe ((Refs.writeHeadSymbolic_safe landed.refs branch).mono ?_ ?_)))))
    · exact fun t h => moved t h.1
    · exact fun _ t h => ⟨rfl, moved t h.2.1⟩
  · exact ⟨rfl, landed⟩

theorem Commit.execute_safe {w : String → Option Hash} {d : Daemon M} (intact : Intact P w d)
    (input : CommitInput) (peerUid : Option UInt32)
    (fingerprints : List (Except (DaemonError Hash) Bytes)) (now : Int)
    (prompts : ∀ e ∈ input.prompts.entries, IsBlob P e.2)
    (tools : ∀ bytes, .ok bytes ∈ fingerprints → IsBlob P bytes)
    (model : ∀ bytes ∈ modelBytes input.model, IsBlob P bytes) :
    (Commit.executeWithNow P config input peerUid fingerprints now).Safe faults
      (fun d' => Untouched P w d d' ∨ Commit.Made faults P w d d') (Commit.Done faults P w d) d := by
  have stop : ∀ {d₁ : Daemon M}, Ahead P d d₁ →
      Untouched P w d d₁ ∨ Commit.Made faults P w d d₁ := fun ahead => Or.inl (ahead.untouched intact)
  refine Adds.andThen (Adds.context (Adds.onDaemonRefs_still intact.typed Refs.readHead_still))
    (fun _ h => stop h) (fun _ _ h => h.untouched intact) (fun head d₁ ahead₁ _ => ?_)
  refine Adds.andThen (Adds.context (Adds.readBranch (intact.ahead ahead₁) _))
    (fun _ h => stop (ahead₁.trans h)) (fun _ _ h => (ahead₁.trans h).untouched intact)
    (fun parent d₂ step ⟨known, current⟩ => ?_)
  have ahead₂ := ahead₁.trans step
  refine Adds.andThen (Adds.snapshotMemory ahead₂.typed _)
    (fun _ h => stop (ahead₂.trans h)) (fun _ _ h => (ahead₂.trans h).untouched intact)
    (fun pair d₃ step ⟨shape, manifest⟩ => ?_)
  have ahead₃ := ahead₂.trans step
  cases manifests : Commit.fingerprintTools config.mcpServers fingerprints with
  | error e => exact ahead₃.untouched intact
  | ok toolMap =>
    refine Program.Safe.bind (Program.Safe.value ?_)
    refine Program.Safe.bind (Program.Safe.mono
      (staged_safe (intact.ahead ahead₃) _ _ _ _ now ?_ manifest known current) ?_ ?_)
    · simp only [CommitInputs.contents, Commit.assembleInputs, List.mem_append, Option.mem_toList,
        or_imp, forall_and, List.forall_mem_map]
      exact ⟨prompts, fun e he => tools e.2 (Commit.mem_fingerprintTools manifests e he), model,
        isBlob_of_none, isBlob_of_none, isBlob_of_none, isBlob_of_none⟩
    · exact fun d' h => Or.inl (h.after ahead₃)
    · rintro (e | out) d₄ ended
      · exact ended.after ahead₃
      · obtain ⟨rfl, landed⟩ := ended
        refine Program.Safe.bind (Program.Safe.mono
          ((landed.after ahead₃).publishHead head.isNone) ?_ ?_)
        · exact fun d' h => Or.inr ⟨_, _, _, h, shape⟩
        · rintro _ d₅ ⟨rfl, landed⟩
          exact ⟨_, _, _, landed, rfl, shape⟩

/-- What a rollback has done when it returns. The record has the target's memory snapshot
and schema version, and without faults the target is what its name stood for. -/
def Rollback.Done (faults : Prop) (P : Platform Hash) (args : RollbackArgs)
    (w : String → Option Hash) (d : Daemon M) (r : Except (DaemonError Hash) RollbackOutput)
    (d' : Daemon M) : Prop :=
  match r with
  | .error _ => Untouched P w d d'
  | .ok out =>
    if args.dryRun then Untouched P w d d' ∧ out.newHeadHash = none
    else ∃ branch inputs now targetHash target, Landed faults P w d d' branch inputs now ∧
      out.newHeadHash = some (P.toHex ((Object.commit (inputs.commit P now)).hash P)) ∧
      Has P d'.repo.objects targetHash (.commit target) ∧
      inputs.memorySnapshot = target.memorySnapshot ∧ inputs.schemaVersion = target.schemaVersion ∧
      (¬ faults → ((Rollback.resolveTarget P args.target).run d).1 = .ok targetHash)

theorem Rollback.forwardRecord_safe {w : String → Option Hash} {d : Daemon M}
    (intact : Intact P w d) (targetHash : Hash) (target : Commit Hash) (branch : String)
    (currentTip : Option Hash) (peerUid : Option UInt32) (now : Int)
    (memory : ∀ h ∈ target.memorySnapshot, ∃ bytes, HasRaw P d.repo.objects h bytes)
    (known : ∀ parent, currentTip = some parent → w branch = some parent)
    (current : ¬ faults → currentTip = w branch) :
    (Rollback.forwardRecord P config targetHash target branch currentTip peerUid now).Safe faults
      (Untouched P w d) (fun r d' => match r with
        | .ok out => ∃ inputs, Landed faults P w d d' branch inputs now ∧
          out = { commitHash := (Object.commit (inputs.commit P now)).hash P, branch } ∧
          inputs.memorySnapshot = target.memorySnapshot ∧
          inputs.schemaVersion = target.schemaVersion
        | .error _ => Untouched P w d d') d := by
  have stop : ∀ {d₁ : Daemon M}, Ahead P d d₁ → Untouched P w d d₁ := fun ahead => ahead.untouched intact
  refine Adds.andThen (Adds.readTextBlobs intact.typed target.prompts)
    (fun _ h => stop h) (fun _ _ h => stop h) (fun prompts d₁ ahead₁ ofPrompts => ?_)
  refine Adds.andThen (Adds.readTextBlobs ahead₁.typed target.tools)
    (fun _ h => stop (ahead₁.trans h)) (fun _ _ h => stop (ahead₁.trans h))
    (fun tools d₂ step₂ ofTools => ?_)
  have ahead₂ := ahead₁.trans step₂
  refine Adds.andThen (Adds.readModelText ahead₂.typed target)
    (fun _ h => stop (ahead₂.trans h)) (fun _ _ h => stop (ahead₂.trans h))
    (fun model d₃ step₃ ofModel => ?_)
  have ahead₃ := ahead₂.trans step₃
  refine Program.Safe.mono (staged_safe (intact.ahead ahead₃) _ _ _ _ now ?_ ?_ known current)
    ?_ ?_
  · simp only [CommitInputs.contents, Rollback.recordInputs, List.mem_append, Option.mem_toList,
      or_imp, forall_and, List.forall_mem_map]
    exact ⟨ofPrompts, ofTools, ofModel, isBlob_of_none, isBlob_of_none, isBlob_of_none,
      isBlob_of_none⟩
  · exact fun h named => (memory h named).imp (fun _ found => found.mono ahead₃.kept.widens)
  · exact fun d' h => h.after ahead₃
  · rintro (e | out) d₄ ended
    · exact ended.after ahead₃
    · exact ⟨_, ended.2.after ahead₃, ended.1, rfl, rfl⟩

theorem Rollback.execute_safe {hmac : Hmac} {w : String → Option Hash} {d : Daemon M}
    (intact : Intact P w d) (args : RollbackArgs) (peerUid : Option UInt32) (nowSeconds : UInt64)
    (now : Int) :
    (Rollback.execute P hmac config args peerUid nowSeconds now).Safe faults
      (Untouched P w d) (Rollback.Done faults P args w d) d := by
  have stop : ∀ {d₁ : Daemon M}, Ahead P d d₁ → Untouched P w d d₁ := fun ahead => ahead.untouched intact
  refine Adds.andThen (Adds.resolveTarget intact.typed args.target)
    (fun _ h => stop h) (fun _ _ h => h.untouched intact) (fun targetHash d₁ ahead₁ named => ?_)
  cases Rollback.checkApproval P hmac config args targetHash peerUid nowSeconds with
  | error e => exact ahead₁.untouched intact
  | ok approved =>
  refine Program.Safe.bind (Program.Safe.value ?_)
  refine Adds.andThen (Adds.loadCommit ahead₁.typed targetHash)
    (fun _ h => stop (ahead₁.trans h)) (fun _ _ h => (ahead₁.trans h).untouched intact)
    (fun target d₂ step stored => ?_)
  have ahead₂ := ahead₁.trans step
  cases shape : (Rollback.validateTargetShape P target targetHash : Except (DaemonError Hash) Unit) with
  | error e => exact ahead₂.untouched intact
  | ok shaped =>
  refine Program.Safe.bind (Program.Safe.value ?_)
  refine Adds.andThen (Adds.headBranch ahead₂.typed)
    (fun _ h => stop (ahead₂.trans h)) (fun _ _ h => (ahead₂.trans h).untouched intact)
    (fun branch d₃ step₃ _ => ?_)
  have ahead₃ := ahead₂.trans step₃
  refine Adds.andThen (Adds.readBranch (intact.ahead ahead₃) branch)
    (fun _ h => stop (ahead₃.trans h)) (fun _ _ h => (ahead₃.trans h).untouched intact)
    (fun currentTip d₄ step₄ ⟨known, current⟩ => ?_)
  have ahead₄ := ahead₃.trans step₄
  refine Adds.andThen (Adds.memoryStep ahead₄.typed args target)
    (fun _ h => stop (ahead₄.trans h)) (fun _ _ h => (ahead₄.trans h).untouched intact)
    (fun memoryPlan d₅ step₅ manifest => ?_)
  have ahead₅ := ahead₄.trans step₅
  refine Adds.andThen (Adds.promptsStep ahead₅.typed args target)
    (fun _ h => stop (ahead₅.trans h)) (fun _ _ h => (ahead₅.trans h).untouched intact)
    (fun promptsPlan d₆ step₆ _ => ?_)
  have ahead₆ := ahead₅.trans step₆
  by_cases dry : args.dryRun = true
  · rw [if_pos dry]
    show Rollback.Done faults P args w d (.ok _) d₆
    rw [Rollback.Done, if_pos dry]
    exact ⟨ahead₆.untouched intact, rfl⟩
  rw [if_neg dry]
  have memory : ∀ h ∈ target.memorySnapshot, ∃ bytes, HasRaw P d₆.repo.objects h bytes := by
    intro h named
    have versioned : target.schemaVersion.isSome = true := by
      by_contra missing
      have mixed : target.memorySnapshot.isSome ∧ target.schemaVersion.isNone := by
        rw [named]
        exact ⟨rfl, by simpa using missing⟩
      rw [Rollback.validateTargetShape, if_pos mixed] at shape
      cases shape
    exact (manifest (by simpa using dry) versioned h named).imp
      (fun _ found => found.mono step₆.kept.widens)
  refine Program.Safe.bind (Program.Safe.mono (Rollback.forwardRecord_safe (intact.ahead ahead₆)
    targetHash target branch currentTip peerUid now memory known current)
    (fun d' h => h.after ahead₆) ?_)
  rintro (e | out) d₇ ended
  · exact ended.after ahead₆
  · obtain ⟨inputs, landed, rfl, snapshot, version⟩ := ended
    show Rollback.Done faults P args w d (.ok _) d₇
    rw [Rollback.Done, if_neg dry]
    have later : Widens P d₂.repo.objects d₇.repo.objects :=
      step₃.kept.widens.trans (step₄.kept.widens.trans (step₅.kept.widens.trans
        (step₆.kept.widens.trans landed.kept.widens)))
    exact ⟨branch, inputs, now, targetHash, target, landed.after ahead₆, rfl, stored.mono later,
      snapshot, version, named⟩

end GitAgentic
