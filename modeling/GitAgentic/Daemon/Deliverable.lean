import GitAgentic.Daemon.CrashSafety
import GitAgentic.Daemon.ReplySize

/-! Where a reply has the room that its request needs, it is sent. What a reply carries comes
from the repository and from the request; of all that, only an object that is read is measured
before it is sent. -/
namespace GitAgentic

open Json

section

variable {Hash M : Type} {d : Daemon M}
  {post : Except (DaemonError Hash) Response → Daemon M → Prop}

theorem always_checkShutdown {cancelled : Bool} {p : DaemonProgram Hash M Response} :
    (do checkShutdown cancelled; p : DaemonProgram Hash M Response).Always d post ↔
      if cancelled then post (.error shuttingDown) d else p.Always d post := by
  cases cancelled <;> exact Iff.rfl

theorem always_inQueue {slot : Bool} {p : DaemonProgram Hash M Response} :
    (inQueue slot p).Always d post ↔
      if slot then p.Always d post else post (.ok commitQueueFull) d := by
  cases slot <;> exact Iff.rfl

end

/- The rooms are large enough for the replies. -/

section

variable {Hash M : Type} [DecidableEq Hash] (P : Platform Hash) (hmac : Hmac)
  (config : DaemonConfig Hash M) (w : Words) (codec : WireCodec) (moment : Moment Hash)
  (correlationId : String)

/-- The reply to a request that came to this has room. -/
def Told (outcome : Except (DaemonError Hash) Response) (_ : Daemon M) : Prop :=
  Room correlationId ((respond P w outcome).size codec)

variable {P hmac config w codec moment correlationId} {d : Daemon M}

omit [DecidableEq Hash] in
theorem told_failed {e : DaemonError Hash} (d : Daemon M) (fits : FailureFits P w correlationId e) :
    Told P w codec correlationId (.error e) d := Room.mono fits (mapAnyhow_size_le e)

omit [DecidableEq Hash] in
theorem told_writePath {served : Prop} {p : DaemonProgram Hash M Response}
    (fits : WritePathFits P w moment correlationId served)
    (serve : served → p.Always d (Told P w codec correlationId)) :
    (do
      checkShutdown moment.cancelledBefore
      inQueue moment.slot (do
        checkShutdown moment.cancelledMeanwhile
        p) : DaemonProgram Hash M Response).Always d (Told P w codec correlationId) := by
  rw [always_checkShutdown, always_inQueue, always_checkShutdown]
  unfold WritePathFits at fits
  split_ifs at fits ⊢
  · exact told_failed d fits
  · exact told_failed d fits
  · exact serve fits
  · show Room _ _
    rwa [respond, size_commitQueueFull]

theorem dispatch_resolveRef {name : String}
    (fits : ResolveFits P w correlationId d.repo.agentic name) :
    (dispatch P hmac config moment (.resolveRef name)).Always d (Told P w codec correlationId) := by
  refine Program.Moves.andThen (context_moves _ (onDaemonRefs_moves (Refs.resolve_moves name)))
    (fun _ _ => trivial) ?_ ?_
  · rintro _ _ rfl ⟨_, ⟨e, failed, rfl⟩, rfl⟩
    exact told_failed _ (fits.failed e failed)
  · rintro (_ | h) _ rfl named
    · show Room _ _
      rw [respond, size_refNotFound]
      exact fits.unknown
    · exact fits.found h named

theorem dispatch_log {limit : Nat}
    (fits : LogFits P w correlationId d.repo.objects d.repo.agentic limit) :
    (dispatch P hmac config moment (.log limit)).Always d (Told P w codec correlationId) := by
  refine Program.Moves.andThen (onDaemonRefs_moves (Refs.resolve_moves "HEAD")) (fun _ _ => trivial) ?_ ?_
  · rintro _ _ rfl ⟨e, failed, rfl⟩
    exact told_failed _ (fits.failed e failed)
  rintro (_ | head) _ rfl named
  · exact fits.empty
  refine Program.Moves.andThen (readLog_moves limit head) (fun _ _ => trivial) ?_ ?_
  · rintro _ _ rfl ⟨e, failed, rfl⟩
    exact told_failed _ (fits.broken head e named failed)
  · rintro log _ rfl found
    exact fits.listed head log named found

theorem readObject_told {hash : String} {h : Hash}
    (fits : ObjectFits P w codec correlationId d.repo.objects hash h) :
    (do
      let object ← withContext ("reading object " ++ hash) (readObjects (fun files => get P files h))
      return objectReply P h object : DaemonProgram Hash M Response).Always d
        (Told P w codec correlationId) := by
  obtain ⟨read, faulted⟩ := fits
  refine Program.Moves.andThen (context_moves _ (readObjects_moves _)) (fun _ _ => trivial) ?_ ?_
  · rintro _ _ rfl ⟨_, rfl | ⟨e, failed, rfl⟩, rfl⟩
    · exact told_failed d faulted
    · rw [failed] at read
      exact told_failed d read
  · rintro object _ rfl found
    rw [found] at read
    dsimp only at read
    show Room _ _
    simp only [respond, objectReply]
    by_cases large : (object.preimage P).length > maxObjectBytes
    · rw [if_pos large] at read ⊢
      rw [size_objectTooLarge]
      exact read
    · rw [if_neg large] at read ⊢
      exact read

theorem dispatch_readObject {hash : String}
    (fits : RequestFits P hmac config w codec moment correlationId d (.readObject hash)) :
    (dispatch P hmac config moment (.readObject hash)).Always d (Told P w codec correlationId) := by
  simp only [RequestFits] at fits
  simp only [dispatch]
  cases parsed : (parseObjectHash P hash : Except (DaemonError Hash) Hash) with
  | error e =>
    have fits : FailureFits P w correlationId (.context ("invalid hash: " ++ hash) e) := by
      rwa [parsed] at fits
    exact told_failed d fits
  | ok h =>
    have fits : ObjectFits P w codec correlationId d.repo.objects hash h := by
      rwa [parsed] at fits
    exact readObject_told fits

omit [DecidableEq Hash] in
theorem told_reply {α : Type} {p : DaemonProgram Hash M α} {reply : α → Response}
    {R : Daemon M → Daemon M → Prop}
    (moves : p.Moves True R (FailureFits P w correlationId)
      (fun a _ => Room correlationId ((reply a).size codec)) d) :
    (do return reply (← p) : DaemonProgram Hash M Response).Always d (Told P w codec correlationId) :=
  Program.Moves.andThen moves (fun _ _ => trivial) (fun _ d _ failed => told_failed d failed)
    (fun _ _ _ room => room)

theorem readDiff_told {seen : RefsSnapshot Hash} {source target : String}
    (unnamed : ∀ name ∈ [source, target], ∀ e, lookUp P seen name = .error e →
      FailureFits P w correlationId e)
    (named : ∀ h k, lookUp P seen source = .ok h → lookUp P seen target = .ok k →
      DiffFits P w correlationId d.repo.objects h k) :
    (do return .diff (← readDiff P seen source target) : DaemonProgram Hash M Response).Always d
      (Told P w codec correlationId) := by
  unfold readDiff
  cases first : lookUp P seen source with
  | error e => exact told_failed d (unnamed source List.mem_cons_self e first)
  | ok h =>
    cases second : lookUp P seen target with
    | error e => exact told_failed d (unnamed target (List.mem_cons_of_mem _ List.mem_cons_self) e second)
    | ok k =>
      have fits := named h k first second
      refine Program.always_bind.mpr (Program.always_read.mpr ⟨?_, ?_⟩)
      · have room := handleDiff_room first second fits
        cases compared : handleDiff P d.repo.objects seen source target with
        | error e =>
          rw [compared] at room
          exact told_failed d room
        | ok out =>
          rw [compared] at room
          exact room
      · exact told_failed _ (fits.failed h .io (.inl .own) (.inr rfl))

theorem dispatch_diff {source target : String}
    (fits : RequestFits P hmac config w codec moment correlationId d (.diff source target)) :
    (dispatch P hmac config moment (.diff source target)).Always d (Told P w codec correlationId) := by
  refine always_inQueue.mpr ?_
  unfold RequestFits at fits
  split_ifs at fits ⊢
  · refine Program.Moves.andThen (onDaemonRefs_moves Refs.snapshot_moves) (fun _ _ => trivial) ?_ ?_
    · rintro _ _ rfl ⟨e, failed, rfl⟩
      exact told_failed _ (fits.listing e failed)
    · rintro seen _ rfl ⟨head, tips⟩
      refine readDiff_told ?_ ?_
      · intro name mem e failed
        have ended := lookUp_names head tips name
        rw [failed] at ended
        obtain ⟨cause, hex, bad, rfl⟩ | rfl := ended
        · exact fits.unparsed name mem cause hex bad
        · exact fits.unknown name mem
      · intro h k first second
        have source_ := lookUp_names head tips source
        have target_ := lookUp_names head tips target
        rw [first] at source_
        rw [second] at target_
        exact fits.known h k source_ target_
  · show Room _ _
    rwa [respond, size_commitQueueFull]

/- A commit. -/

theorem snapshotMemory_moves {input : CommitInput}
    (fits : CommitFits P config w moment correlationId d input) :
    (Commit.snapshotMemory P config input.noMemory).Moves True (fun _ _ => True)
      (FailureFits P w correlationId) (fun taken _ => MemoryIs P config d input taken.1 taken.2) d := by
  unfold Commit.snapshotMemory
  by_cases left : input.noMemory = true
  · rw [if_pos left]
    exact Program.Moves.value trivial (.without (.inl left))
  rw [if_neg left]
  have wanted : input.noMemory = false := Bool.eq_false_of_not_eq_true left
  cases configured : config.memory with
  | none => exact Program.Moves.value trivial (.without (.inr configured))
  | some adapter =>
    refine Program.Moves.andThen (context_moves _ (toProgram_moves adapter.snapshot d))
      (fun _ _ => trivial) ?_ ?_
    · rintro _ _ _ ⟨_, ⟨m, d', rfl, answered⟩, rfl⟩
      exact ⟨trivial, fits.snapshot adapter m d' configured wanted answered⟩
    rintro handle d₁ _ taken
    refine Program.Moves.andThen (context_moves _ (onDaemonObjects_moves (putRaw_moves .tree _ _)))
      (fun _ _ => trivial) ?_ ?_
    · rintro _ _ _ ⟨_, ⟨e, failed, rfl⟩, rfl⟩
      exact ⟨trivial, fits.manifest adapter handle d₁ e configured wanted taken failed⟩
    · rintro _ _ _ rfl
      exact ⟨trivial, MemoryIs.taken configured wanted taken⟩

omit [DecidableEq Hash] in
theorem publishHead_moves (branch : String) (needsHeadWrite : Bool) (d : Daemon M) :
    (Commit.publishHead branch needsHeadWrite : DaemonProgram Hash M Unit).Moves True (fun _ _ => True)
      (fun _ => False) (fun _ _ => True) d := by
  have whatever : (onDaemonRefs (Refs.writeHeadSymbolic branch) : DaemonProgram Hash M Unit).Moves True
      (fun _ _ => True) (fun _ => True) (fun _ _ => True) d := by
    refine Program.Safe.mono (Program.Safe.anything _ d) (fun _ h => h) ?_
    rintro (e | a) _ _
    · exact ⟨trivial, trivial⟩
    · exact ⟨trivial, trivial⟩
  unfold Commit.publishHead
  split
  · exact Program.Moves.bind (fun _ _ => trivial) whatever.attempt
      (fun _ _ _ _ => Program.Moves.value trivial trivial)
  · exact Program.Moves.value trivial trivial

theorem executeWithNow_moves {input : CommitInput}
    (fits : CommitFits P config w moment correlationId d input) :
    (Commit.executeWithNow P config input moment.peerUid moment.fingerprints moment.now).Moves True
      (fun _ _ => True) (FailureFits P w correlationId)
      (fun out _ => Room correlationId (quotedSize out.commitHash + quotedSize out.branch + 42)) d := by
  refine Program.Moves.andThen (context_moves _ (onDaemonRefs_moves Refs.readHead_moves))
    (fun _ _ => trivial) ?_ ?_
  · rintro _ _ rfl ⟨_, ⟨e, failed, rfl⟩, rfl⟩
    exact ⟨trivial, fits.head e failed⟩
  rintro head _ rfl is
  refine Program.Moves.andThen (context_moves _ (onDaemonRefs_moves (Refs.readBranch_moves _)))
    (fun _ _ => trivial) ?_ ?_
  · rintro _ _ rfl ⟨_, ⟨e, failed, rfl⟩, rfl⟩
    exact ⟨trivial, fits.tip head e is failed⟩
  rintro parent _ rfl tip
  refine Program.Moves.bind (fun _ _ => trivial) (snapshotMemory_moves fits) ?_
  rintro ⟨memorySnapshot, schemaVersion⟩ d₁ _ memory
  refine Program.Moves.bind (fun _ _ => trivial) (Program.Moves.ofExcept trivial fits.tools) ?_
  rintro tools d₂ _ fingerprinted
  have stages : CommitStages P config moment d input (Commit.branchOf input head)
      (Commit.assembleInputs input parent memorySnapshot schemaVersion tools moment.peerUid
        config.exemptEntropyPrefixes) :=
    ⟨⟨head, is, rfl⟩, parent, memorySnapshot, schemaVersion, tools, tip, memory, fingerprinted, rfl⟩
  refine Program.Moves.andThen (context_moves _ (onRepository_moves
    (stageAndCommit_moves d.repo.agentic _ _ _ _))) (fun _ _ => trivial) ?_ ?_
  · rintro _ _ _ ⟨_, ⟨e, failed, rfl⟩, rfl⟩
    exact ⟨trivial, fits.staging _ _ e stages failed⟩
  rintro _ d₃ _ rfl
  refine Program.Moves.andThen (publishHead_moves _ _ d₃) (fun _ _ => trivial) ?_ ?_
  · exact fun _ _ _ impossible => False.elim impossible
  · exact fun _ _ _ _ => ⟨trivial, fits.done _ _ stages⟩

/- A rollback. -/

namespace Rollback

variable {args : RollbackArgs} {adapter : MemoryAdapter Hash M} {targetSchema : String}

omit [DecidableEq Hash] in
theorem onAgentic_moves {α : Type} {p : Program (FileTree TextFile) (DaemonError Hash) α}
    {fails : DaemonError Hash → Prop} {gives : α → Prop}
    (moves : p.Moves True Eq fails (fun a _ => gives a) d.repo.agentic) :
    (onAgentic p : DaemonProgram Hash M α).Moves True Eq fails (fun a _ => gives a) d := by
  refine Program.Moves.focus (fun _ _ => rfl) (fun _ _ _ => rfl) (fun _ => rfl) ?_ moves
  rintro _ rfl
  rfl

theorem applySteps_moves (steps : List MigrationStep) :
    (applySteps P config adapter steps).Moves True (Fed P)
      (fun e => ∃ cause, (∃ m, ((∃ d', ComesTo P config.store (adapter.applyReverseMigrations steps)
          { d with reversed := d.reversed ++ steps } (.error m) d') ∨ m = .sqlx) ∧
        cause = .memory m) ∧ e = .context "running reverse migrations" cause)
      (fun _ d' => ComesTo P config.store (adapter.applyReverseMigrations steps)
        { d with reversed := d.reversed ++ steps } (.ok ()) d') d := by
  have handed : Fed P d { d with reversed := d.reversed ++ steps } := .of_same rfl rfl rfl
  refine context_moves _ ⟨.refl d, ?_, fun _ => Program.Moves.fail (.refl d) ⟨.sqlx, .inr rfl, rfl⟩⟩
  refine Program.Safe.mono (toProgram_moves (adapter.applyReverseMigrations steps) _)
    (fun _ h => handed.trans h) ?_
  rintro (e | ⟨⟩) d' ⟨fed, ended⟩
  · obtain ⟨m, d'', rfl, answered⟩ := ended
    exact ⟨handed.trans fed, m, .inl ⟨d'', answered⟩, rfl⟩
  · exact ⟨handed.trans fed, ended⟩

theorem reverseMigrations_moves
    (fits : ReverseFits P config w correlationId d args adapter targetSchema) :
    (reverseMigrations P config adapter args targetSchema).Moves True (Fed P)
      (FailureFits P w correlationId) (fun plan d' => Reversed P config d args adapter targetSchema plan d')
      d := by
  have here : ∀ d', d = d' → Fed P d d' := by
    rintro _ rfl
    exact .refl d
  refine Program.Moves.andThen (context_moves _ (readMemory_moves _)) here ?_ ?_
  · rintro _ _ rfl ⟨_, ⟨m, failed, rfl⟩, rfl⟩
    exact ⟨.refl d, fits.live m failed⟩
  rintro live _ rfl current
  dsimp only
  split
  · next same =>
    subst same
    exact Program.Moves.value (.refl d) (.already current)
  next other =>
  refine Program.Moves.andThen (context_moves _ (readMemory_moves _)) here ?_ ?_
  · rintro _ _ rfl ⟨_, ⟨m, failed, rfl⟩, rfl⟩
    exact ⟨.refl d, fits.pending live m current other failed⟩
  rintro names _ rfl pending
  refine Program.Moves.andThen (context_moves _ (onAgentic_moves
    (Migrate.loadSteps_moves names args.acceptDataLoss))) here ?_ ?_
  · rintro _ _ rfl ⟨e, failed, rfl⟩
    exact ⟨.refl d, fits.files names e pending failed⟩
  rintro steps _ rfl loaded
  by_cases dry : args.dryRun = true
  · rw [if_pos dry]
    exact Program.Moves.value (.refl d) (.dry current dry)
  rw [if_neg dry]
  have wet : args.dryRun = false := Bool.eq_false_of_not_eq_true dry
  refine Program.Moves.andThen (applySteps_moves steps) (fun _ fed => fed) ?_ ?_
  · rintro _ d' fed ⟨_, ⟨m, failed, rfl⟩, rfl⟩
    obtain ⟨d'', answered⟩ | rfl := failed
    · exact ⟨fed, fits.reverse names steps d'' m pending loaded wet (.inl answered)⟩
    · exact ⟨fed, fits.reverse names steps d' .sqlx pending loaded wet (.inr rfl)⟩
  · exact fun _ d' fed ran => ⟨fed, .undone current pending loaded ran⟩

theorem restoreMemory_moves {manifestHash : Hash}
    (fits : RestoreFits P config w correlationId d adapter manifestHash targetSchema) :
    (restoreMemory P config adapter manifestHash targetSchema).Moves True (Fed P)
      (FailureFits P w correlationId) (fun _ _ => True) d := by
  refine Program.Moves.andThen (loadManifest_moves manifestHash) ?_ ?_ ?_
  · rintro _ rfl
    exact .refl d
  · rintro e _ rfl failed
    exact ⟨.refl d, fits.manifest e failed⟩
  rintro manifest _ rfl is
  refine Program.Moves.andThen (context_moves _ (toProgram_moves adapter.beginRestore d))
    (fun _ fed => fed) ?_ ?_
  · rintro _ _ fed ⟨_, ⟨m, d', rfl, answered⟩, rfl⟩
    exact ⟨fed, fits.pause m d' answered⟩
  rintro ⟨⟩ d₁ fed paused
  refine Program.Moves.andThen (Program.Moves.attempt (context_moves "restoring memory snapshot"
    (toProgram_moves (adapter.restoreWithGuard { manifest, schemaVersion := targetSchema }) d₁)))
    (fun _ more => fed.trans more) (fun _ _ _ (impossible : False) => impossible.elim) ?_
  rintro (e | ⟨⟩) d₂ more ended
  · obtain ⟨_, ⟨m, d', rfl, answered⟩, rfl⟩ := ended
    have fed₂ := fed.trans more
    have told := fits.restore manifest d₁ d' m is paused answered
    exact ⟨fed₂, ⟨fed₂.trans (.of_same rfl rfl rfl), told⟩, fun _ => ⟨fed₂, told⟩⟩
  · have fed₂ := fed.trans more
    exact ⟨fed₂, ⟨fed₂.trans (.of_same rfl rfl rfl), trivial⟩, fun _ => ⟨fed₂, trivial⟩⟩

variable {c : Commit Hash}

theorem memoryStep_moves (fits : MemoryFits P config w correlationId d args c) :
    (memoryStep P config args c).Moves True (Fed P) (FailureFits P w correlationId)
      (fun plan _ => MemoryPlanned P config d args c plan) d := by
  unfold memoryStep
  cases version : c.schemaVersion with
  | none => exact Program.Moves.value (.refl d) (.without version)
  | some targetSchema =>
  cases configured : config.memory with
  | none => exact Program.Moves.fail (.refl d) (fits.missing configured)
  | some adapter =>
  refine Program.Moves.bind Fed.trans (reverseMigrations_moves
    (fits.reverse targetSchema adapter version configured)) (fun plan d₁ _ reversed => ?_)
  cases snapshot : c.memorySnapshot with
  | none => exact Program.Moves.value (.refl d₁) (.schema version configured reversed snapshot)
  | some manifestHash =>
  by_cases dry : args.dryRun = true
  · dsimp only
    rw [if_pos dry]
    exact Program.Moves.value (.refl d₁) (.data version configured reversed snapshot)
  · dsimp only
    rw [if_neg dry]
    have restored := restoreMemory_moves (fits.restore targetSchema adapter plan d₁ manifestHash version
      configured reversed snapshot (Bool.eq_false_of_not_eq_true dry))
    exact Program.Moves.bind Fed.trans restored
      (fun _ d₂ _ _ => Program.Moves.value (.refl d₂) (.data version configured reversed snapshot))

theorem promptsStep_moves (fits : ∀ hash e, args.dryRun = false → c.prompts = some hash →
      RestoreFails config.repoRoot P d.repo.objects d.work hash e → FailureFits P w correlationId e) :
    (promptsStep P config args c : DaemonProgram Hash M _).Moves True (fun d d' => d'.repo = d.repo)
      (FailureFits P w correlationId) (fun plan _ => plan = promptsPlan P config c) d := by
  unfold promptsStep promptsPlan
  cases prompts : c.prompts with
  | none => exact Program.Moves.value rfl rfl
  | some hash =>
  by_cases dry : args.dryRun = true
  · dsimp only
    rw [if_pos dry]
    exact Program.Moves.value rfl rfl
  · dsimp only
    rw [if_neg dry]
    refine Program.Moves.bind (fun first second => second.trans first) ((restorePrompts_moves hash d).weaken
      ?_ (fun _ _ _ given => given)) (fun _ _ _ _ => Program.Moves.value rfl rfl)
    exact fun e failed => fits hash e (Bool.eq_false_of_not_eq_true dry) prompts failed

theorem forwardRecord_moves {files : Files} {e : Daemon M} {h : Hash} {branch : String}
    {tip : Option Hash} {plan : List String} (same : e.repo.objects = files)
    (fits : RecordFits P config w moment correlationId d files h c branch tip plan) :
    (forwardRecord P config h c branch tip moment.peerUid moment.now).Moves True (fun _ _ => True)
      (FailureFits P w correlationId) (fun out _ => ∃ inputs, Records P config moment files h c tip inputs ∧
        out = { commitHash := (Object.commit (inputs.commit P moment.now)).hash P, branch }) e := by
  subst same
  refine Program.Moves.andThen (readTextBlobs_moves c.prompts) (fun _ _ => trivial) ?_ ?_
  · rintro f _ rfl ⟨hash, mem, failed⟩
    exact ⟨trivial, fits.texts hash f (.inl mem) failed⟩
  rintro prompts _ rfl arePrompts
  refine Program.Moves.andThen (readTextBlobs_moves c.tools) (fun _ _ => trivial) ?_ ?_
  · rintro f _ rfl ⟨hash, mem, failed⟩
    exact ⟨trivial, fits.texts hash f (.inr mem) failed⟩
  rintro tools _ rfl areTools
  refine Program.Moves.andThen (readModelText_moves c) (fun _ _ => trivial) ?_ ?_
  · rintro f _ rfl ⟨hash, mem, failed⟩
    exact ⟨trivial, fits.model hash f mem failed⟩
  rintro model _ rfl isModel
  have records : Records P config moment e.repo.objects h c tip
      (recordInputs P config h c tip moment.peerUid prompts tools model) :=
    ⟨prompts, tools, model, arePrompts, areTools, isModel, rfl⟩
  have staged := stageAndCommit_moves (P := P) (S := config.store) d.repo.agentic branch
    (recordInputs P config h c tip moment.peerUid prompts tools model) moment.now e.repo
  refine (context_moves _ (onRepository_moves staged)).weaken ?_ ?_
  · rintro _ ⟨_, ⟨f, failed, rfl⟩, rfl⟩
    exact fits.staging _ f records failed
  · rintro _ _ _ rfl
    exact ⟨_, records, rfl⟩

omit [DecidableEq Hash] in
theorem resolveTarget_moves (target : String) :
    (resolveTarget P target : DaemonProgram Hash M Hash).Moves True Eq
      (fun e => (∃ cause, Refs.NameFails P d.repo.agentic target cause ∧ e = .core cause) ∨
        e = .text ("ref not found: " ++ target))
      (fun h _ => Refs.Names P d.repo.agentic target (some h)) d := by
  refine Program.Moves.bind Eq.trans ((onDaemonRefs_moves (Refs.resolve_moves target)).weaken
    (fun _ => .inl) (fun _ _ _ named => named)) ?_
  rintro (_ | h) _ rfl named
  · exact Program.Moves.fail rfl (.inr rfl)
  · exact Program.Moves.value rfl named

theorem headBranch_moves (fits : RollbackFits P hmac config w moment correlationId d args) :
    (headBranch P : DaemonProgram Hash M String).Moves True Eq (FailureFits P w correlationId)
      (fun branch _ => Refs.HeadIs P d.repo.agentic (some (.branch branch))) d := by
  refine Program.Moves.andThen (onDaemonRefs_moves Refs.readHead_moves) (fun _ h => h) ?_ ?_
  · rintro _ _ rfl ⟨e, failed, rfl⟩
    exact ⟨rfl, fits.head e failed⟩
  rintro (_ | branch | h) _ rfl is
  · exact Program.Moves.fail rfl fits.noHead
  · exact Program.Moves.value rfl is
  · exact Program.Moves.fail rfl fits.detached

theorem execute_moves (fits : RollbackFits P hmac config w moment correlationId d args) :
    (execute P hmac config args moment.peerUid moment.nowSeconds moment.now).Moves True (fun _ _ => True)
      (FailureFits P w correlationId) (fun out _ => Room correlationId out.size) d := by
  refine Program.Moves.andThen (resolveTarget_moves args.target) (fun _ _ => trivial) ?_ ?_
  · rintro _ _ rfl (⟨e, failed, rfl⟩ | rfl)
    · exact ⟨trivial, fits.unresolved e failed⟩
    · exact ⟨trivial, fits.unknown⟩
  rintro h _ rfl named
  refine Program.Moves.andThen (Program.Moves.ofExcept rfl (fits.refused h · named)) (fun _ _ => trivial)
    (fun _ _ _ failed => ⟨trivial, failed⟩) ?_
  rintro ⟨⟩ _ rfl approved
  refine Program.Moves.andThen (loadCommit_moves h) (fun _ _ => trivial) ?_ ?_
  · rintro e _ rfl failed
    exact ⟨trivial, fits.unread h e named failed⟩
  rintro c _ rfl found
  refine Program.Moves.andThen (Program.Moves.ofExcept rfl (fits.misshapen h c · named found))
    (fun _ _ => trivial) (fun _ _ _ failed => ⟨trivial, failed⟩) ?_
  rintro ⟨⟩ _ rfl shaped
  have target : TargetIs P hmac config moment d args h c := ⟨named, approved, found, shaped⟩
  refine Program.Moves.andThen (headBranch_moves fits) (fun _ _ => trivial)
    (fun _ _ _ failed => ⟨trivial, failed⟩) ?_
  rintro branch _ rfl head
  refine Program.Moves.andThen (onDaemonRefs_moves (Refs.readBranch_moves branch)) (fun _ _ => trivial) ?_ ?_
  · rintro _ _ rfl ⟨e, failed, rfl⟩
    exact ⟨trivial, fits.tip branch e head failed⟩
  rintro tip _ rfl reads
  refine Program.Moves.andThen (memoryStep_moves (fits.memory h c target)) (fun _ _ => trivial)
    (fun _ _ _ failed => ⟨trivial, failed⟩) ?_
  intro memoryPlan d₁ fed planned
  refine Program.Moves.andThen (promptsStep_moves (fun hash e wet prompts failed =>
    fits.prompts h c hash d₁ e target wet prompts fed failed)) (fun _ _ => trivial)
    (fun _ _ _ failed => ⟨trivial, failed⟩) ?_
  rintro _ d₂ same rfl
  have steps : Planned P hmac config moment d args h c branch tip
      (planOf P h c tip ++ memoryPlan ++ promptsPlan P config c ++ followUps c) :=
    ⟨target, head, reads, memoryPlan, planned, rfl⟩
  by_cases dry : args.dryRun = true
  · rw [if_pos dry]
    have room := fits.planned h c branch tip _ steps dry
    rw [← size_planned] at room
    exact ⟨trivial, room⟩
  rw [if_neg dry]
  have record := fits.record h c branch tip _ d₁ steps (Bool.eq_false_of_not_eq_true dry) fed
  refine Program.Moves.bind (fun _ _ => trivial) (forwardRecord_moves (congrArg Repository.objects same)
    record) ?_
  rintro _ d₃ _ ⟨inputs, records, rfl⟩
  exact ⟨trivial, record.done inputs records⟩

end Rollback

theorem dispatch_told {request : Wire.Request}
    (fits : RequestFits P hmac config w codec moment correlationId d request) :
    (dispatch P hmac config moment request).Always d (Told P w codec correlationId) := by
  cases request with
  | ping => exact fits
  | resolveRef name => exact dispatch_resolveRef fits
  | commit input => exact told_writePath fits (fun served => told_reply (executeWithNow_moves served))
  | log limit => exact dispatch_log fits
  | diff source target => exact dispatch_diff fits
  | readObject hash => exact dispatch_readObject fits
  | rollback target dryRun acceptDataLoss approvalToken =>
    exact told_writePath fits (fun served => told_reply (Rollback.execute_moves served))

omit [DecidableEq Hash] in
theorem sent_iff (correlationId : String) (response : Response) :
    (∃ r, (.ok response : Except (DaemonError Hash) Response) = .ok r ∧
        ∀ sent, (writeReply P codec correlationId r sent).1 = .ok ()) ↔
      Room correlationId (response.size codec) := by
  constructor
  · rintro ⟨r, same, written⟩
    cases same
    exact (writeReply_ok_iff P codec correlationId response []).mp (written [])
  · intro room
    exact ⟨response, rfl, fun sent => (writeReply_ok_iff P codec correlationId response sent).mpr room⟩

theorem Arrival.delivered {a : Arrival P codec} (fits : a.Fits hmac config w d) :
    a.Delivered hmac config w d := by
  unfold Arrival.Delivered answer
  unfold Arrival.Fits at fits
  split_ifs at fits ⊢
  · refine Program.always_bind.mpr (Program.always_attempt.mpr ?_)
    exact Program.Safe.mono (dispatch_told fits) (fun _ h => h)
      (fun outcome _ told => (sent_iff a.correlationId (respond P w outcome)).mpr told)
  · refine (sent_iff a.correlationId rateBudgetExhausted).mpr ?_
    rwa [size_rateBudgetExhausted]

end

/- A ping under a correlation id of any length. -/

def longId (n : Nat) : String := String.ofList (List.replicate n 'a')

theorem quotedSize_longId (n : Nat) : Json.quotedSize (longId n) = n + 2 := by
  have plain : (longId n).toList.all Json.isPlain = true := by
    rw [longId, String.toList_ofList]
    refine List.all_eq_true.mpr ?_
    intro c mem
    rw [List.eq_of_mem_replicate mem]
    rfl
  rw [Json.quotedSize_of_plain plain, longId, String.toList_ofList, List.length_replicate]

def longPing (n : Nat) : Json := envelopeJson (longId n) none RequestV0.ping.toJson

theorem length_longPing (n : Nat) : (Platform.sample.toVec (longPing n)).length = n + 45 := by
  have size : (Platform.sample.toVec (longPing n)).length =
    Json.size Platform.sample.f64Text (longPing n) := rfl
  have payload : Json.size Platform.sample.f64Text RequestV0.ping.toJson = 13 := by rfl
  rw [size, longPing, envelopeJson]
  simp (disch := decide +kernel) only [Option.map_none, Option.toList_none,
    List.nil_append, Json.size_object_cons, Json.memberSize, Json.size_string, payload,
    List.map_cons, List.map_nil, List.sum_cons, List.sum_nil, quotedSize_longId,
    Json.quotedSize_of_plain, String.reduceToList, List.length_cons, List.length_nil]
  omega

/-- Nothing stands in the way of the request. -/
def idle : Moment Bytes where
  peerUid := none
  granted := true
  slot := true
  cancelledBefore := false
  cancelledMeanwhile := false
  fingerprints := []
  nowSeconds := 0
  now := 0

def ping (n : Nat) (fits : n + 45 ≤ Framing.maxFrameBytes) :
    Arrival Platform.sample Daemon.hexCodec where
  moment := idle
  bytes := Platform.sample.toVec (longPing n)
  small := (length_longPing n).trans_le fits
  correlationId := longId n
  request := .ping
  parsed := parseEnvelope_v0 Platform.sample Daemon.hexCodec (r := .ping) trivial (longId n) (.inl rfl)

/- A ping and a commit, sent to a new repository. -/

end GitAgentic
