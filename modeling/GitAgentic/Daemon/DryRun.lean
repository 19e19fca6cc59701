import GitAgentic.Daemon.CrashSafety
import GitAgentic.Daemon.Gate
import GitAgentic.Daemon.Undisturbed

/-! A dry run of a rollback: it changes nothing, and its plan is the plan of the run, up to
the record that only the run makes. -/
namespace GitAgentic

/-- The request as a dry run. -/
def RollbackArgs.dry (args : RollbackArgs) : RollbackArgs := { args with dryRun := true }

/-- The request as a run that changes things. -/
def RollbackArgs.live (args : RollbackArgs) : RollbackArgs := { args with dryRun := false }

namespace Rollback

variable {Hash M : Type} [DecidableEq Hash] {P : Platform Hash} {hmac : Hmac}
  {config : DaemonConfig Hash M} {args : RollbackArgs}

omit [DecidableEq Hash] in
theorem readMemory_still {α : Type} (message : String) (f : M → Except (MemoryError Hash) α) :
    (withContext message (readMemory f) : DaemonProgram Hash M α).Still :=
  (Program.Still.read _ _).mapError

omit [DecidableEq Hash] in
theorem loadSteps_context_still (message : String) (names : List String) (acceptDataLoss : Bool) :
    (withContext message (onAgentic (Migrate.loadSteps config.agenticDir names acceptDataLoss)) :
      DaemonProgram Hash M _).Still :=
  ((Migrate.loadSteps_still _ _ _).focus (fun _ => rfl)).mapError

omit [DecidableEq Hash] in
theorem resolveTarget_still (target : String) :
    (resolveTarget P target : DaemonProgram Hash M _).Still := by
  refine Program.Still.bind (onDaemonRefs_still (Refs.resolve_still target)) (fun found => ?_)
  cases found with
  | none => trivial
  | some hash => trivial

theorem reverseMigrations_still (adapter : MemoryAdapter Hash M) (targetSchema : String) :
    (reverseMigrations P config adapter args.dry targetSchema).Still := by
  refine Program.Still.bind (readMemory_still _ _) (fun live => ?_)
  dsimp only
  split
  · trivial
  · refine Program.Still.bind (readMemory_still _ _) (fun names => ?_)
    exact Program.Still.bind (loadSteps_context_still _ _ _) (fun _ => trivial)

theorem memoryStep_still (target : Commit Hash) : (memoryStep P config args.dry target).Still := by
  unfold memoryStep
  split
  · trivial
  split
  · trivial
  refine Program.Still.bind (reverseMigrations_still _ _) (fun planned => ?_)
  dsimp only
  split
  · trivial
  · trivial

theorem promptsStep_still (target : Commit Hash) : (promptsStep P config args.dry target).Still := by
  unfold promptsStep
  split
  · trivial
  · trivial

theorem execute_still (peerUid : Option UInt32) (nowSeconds : UInt64) (now : Int) :
    (execute P hmac config args.dry peerUid nowSeconds now).Still := by
  refine Program.Still.bind (resolveTarget_still _) (fun hash => ?_)
  refine Program.Still.bind (Program.Still.ofExcept _) (fun _ => ?_)
  refine Program.Still.bind (loadCommit_still hash) (fun target => ?_)
  refine Program.Still.bind (Program.Still.ofExcept _) (fun _ => ?_)
  refine Program.Still.bind headBranch_still (fun branch => ?_)
  refine Program.Still.bind (onDaemonRefs_still (Refs.readBranch_still branch)) (fun tip => ?_)
  refine Program.Still.bind (memoryStep_still target) (fun memoryPlan => ?_)
  exact Program.Still.bind (promptsStep_still target) (fun promptsPlan => trivial)

/- What a step of the run plans, the dry step plans where the run started. -/

theorem reverseMigrations_foretold {adapter : MemoryAdapter Hash M} {targetSchema : String}
    {d d' : Daemon M} {plan : List String}
    (ran : (reverseMigrations P config adapter args.live targetSchema).run d = (.ok plan, d')) :
    (reverseMigrations P config adapter args.dry targetSchema).run d = (.ok plan, d) := by
  obtain ⟨live, read, rest⟩ := (readMemory_still _ _).then_ok ran
  refine (Program.run_bind_of_ok read).trans ?_
  dsimp only at rest ⊢
  by_cases there : live = targetSchema
  · rw [if_pos there] at rest ⊢
    cases rest
    rfl
  · rw [if_neg there] at rest ⊢
    obtain ⟨names, queried, rest⟩ := (readMemory_still _ _).then_ok rest
    obtain ⟨steps, loaded, rest⟩ := (loadSteps_context_still _ _ _).then_ok rest
    refine (Program.run_bind_of_ok queried).trans ((Program.run_bind_of_ok loaded).trans ?_)
    obtain ⟨_, d₁, _, ended⟩ := Program.run_bind_eq_ok_iff.mp rest
    cases ended
    rfl

theorem memoryStep_foretold {target : Commit Hash} {d d' : Daemon M} {plan : List String}
    (ran : (memoryStep P config args.live target).run d = (.ok plan, d')) :
    (memoryStep P config args.dry target).run d = (.ok plan, d) := by
  unfold memoryStep at ran ⊢
  cases schema : target.schemaVersion with
  | none =>
    simp only [schema] at ran ⊢
    cases ran
    rfl
  | some targetSchema =>
    simp only [schema] at ran ⊢
    cases attached : config.memory with
    | none =>
      simp only [attached] at ran
      cases ran
    | some adapter =>
      simp only [attached] at ran ⊢
      obtain ⟨planned, d₁, migrated, rest⟩ := Program.run_bind_eq_ok_iff.mp ran
      refine (Program.run_bind_of_ok (reverseMigrations_foretold migrated)).trans ?_
      cases memory : target.memorySnapshot with
      | none =>
        simp only [memory] at rest ⊢
        cases rest
        rfl
      | some manifestHash =>
        simp only [memory] at rest ⊢
        obtain ⟨_, d₂, _, ended⟩ := Program.run_bind_eq_ok_iff.mp rest
        cases ended
        rfl

theorem promptsStep_foretold {target : Commit Hash} {d₁ d₂ : Daemon M} {plan : List String}
    (ran : (promptsStep P config args.live target).run d₁ = (.ok plan, d₂)) (d : Daemon M) :
    (promptsStep P config args.dry target).run d = (.ok plan, d) := by
  unfold promptsStep at ran ⊢
  cases prompts : target.prompts with
  | none =>
    simp only [prompts] at ran ⊢
    cases ran
    rfl
  | some promptsHash =>
    simp only [prompts] at ran ⊢
    obtain ⟨_, d₃, _, ended⟩ := Program.run_bind_eq_ok_iff.mp ran
    cases ended
    rfl

/-- What the request plans and what the run then adds to the plan. -/
structure Foretold (P : Platform Hash) (dry live : RollbackOutput) : Prop where
  executed : dry.executed = false ∧ live.executed = true
  newHead : dry.newHeadHash = none
  plan : ∃ hash branch, live.newHeadHash = some (P.toHex hash) ∧
    live.plannedSteps = dry.plannedSteps ++
      ["forward-recorded rollback as " ++ P.short hash ++ " on " ++ branch]

theorem execute_foretold {peerUid : Option UInt32} {nowSeconds : UInt64} {now : Int}
    {d d' : Daemon M} {out : RollbackOutput}
    (ran : (execute P hmac config args.live peerUid nowSeconds now).run d = (.ok out, d')) :
    ∃ dry, (execute P hmac config args.dry peerUid nowSeconds now).run d = (.ok dry, d) ∧
      Foretold P dry out := by
  obtain ⟨hash, resolved, ran⟩ := (resolveTarget_still _).then_ok ran
  obtain ⟨_, approved, ran⟩ := (Program.Still.ofExcept _).then_ok ran
  obtain ⟨target, loaded, ran⟩ := (loadCommit_still hash).then_ok ran
  obtain ⟨_, shaped, ran⟩ := (Program.Still.ofExcept _).then_ok ran
  obtain ⟨branch, named, ran⟩ := headBranch_still.then_ok ran
  obtain ⟨tip, read, ran⟩ := (onDaemonRefs_still (Refs.readBranch_still branch)).then_ok ran
  obtain ⟨memoryPlan, d₁, restored, ran⟩ := Program.run_bind_eq_ok_iff.mp ran
  obtain ⟨promptsPlan, d₂, rewritten, ran⟩ := Program.run_bind_eq_ok_iff.mp ran
  obtain ⟨recorded, d₃, _, ended⟩ := Program.run_bind_eq_ok_iff.mp ran
  cases ended
  refine ⟨⟨planOf P hash target tip ++ memoryPlan ++ promptsPlan ++ followUps target, false, none⟩,
    ?_, ⟨rfl, rfl⟩, rfl, recorded.commitHash, recorded.branch, rfl, rfl⟩
  refine (Program.run_bind_of_ok resolved).trans ((Program.run_bind_of_ok approved).trans ?_)
  refine (Program.run_bind_of_ok loaded).trans ((Program.run_bind_of_ok shaped).trans ?_)
  refine (Program.run_bind_of_ok named).trans ((Program.run_bind_of_ok read).trans ?_)
  refine (Program.run_bind_of_ok (memoryStep_foretold restored)).trans ?_
  exact (Program.run_bind_of_ok (promptsStep_foretold rewritten d)).trans rfl

/-- Wherever a dry run is stopped, also after failures, nothing has changed. When the run
succeeds, the dry run succeeds, with the same plan up to the line for the record. -/
theorem dry_run_foretells (args : RollbackArgs) (peerUid : Option UInt32) (nowSeconds : UInt64)
    (now : Int) (d : Daemon M) :
    (∀ p d', Program.Reaches (execute P hmac config args.dry peerUid nowSeconds now, d) (p, d') →
      d' = d) ∧
    ∀ out d', (execute P hmac config args.live peerUid nowSeconds now).run d = (.ok out, d') →
      ∃ dry, (execute P hmac config args.dry peerUid nowSeconds now).run d = (.ok dry, d) ∧
        Foretold P dry out :=
  ⟨fun _ _ reaches => (execute_still peerUid nowSeconds now).reaches reaches,
    fun _ _ ran => execute_foretold ran⟩

/-- A commit with a tool and a model. -/
def tooled : CommitInputs Bytes where
  author := "a"
  message := "m"
  parent := none
  codeSha := some "c"
  prompts := BTreeMap.empty
  tools := BTreeMap.empty.insert "t" [104, 105]
  model := some "v"
  memorySnapshot := none
  schemaVersion := none
  intent := none
  plan := none
  transcript := none
  evals := none
  costCents := 0
  peerUid := none
  exemptEntropyPrefixes := []

def tooledHash : Bytes := (Object.commit (tooled.commit Platform.sample 0)).hash Platform.sample

/-- The refs when the commit is on `main`. -/
def tooledRefs : FileTree TextFile :=
  ((Refs.writeHeadSymbolic "main" : Refs.RefsProgram Bytes Unit).run
    ((Refs.writeBranch Platform.sample "main" tooledHash).run Refs.opened).2).2

theorem tooledRefs_refines : Refs.Refines Platform.sample
    (Function.update (fun _ => none) "main" (some tooledHash)) tooledRefs := by
  have moved : ((Refs.writeBranch Platform.sample "main" tooledHash).run Refs.opened).1 = .ok () := by
    decide +kernel
  have fresh : Refs.Refines Platform.sample (fun _ => none) Refs.opened := Refs.opened_fresh.refines
  have first := (Refs.writeBranch_safe fresh "main" tooledHash : Program.Safe False _ _ _ _).run
  rw [moved] at first
  have second := (Refs.writeHeadSymbolic_safe first.2.2 "main" : Program.Safe False _ _ _ _).run
  exact second.2.1

def HoldsTooled (files : Files) : Prop :=
  ∀ o ∈ tooled.objects Platform.sample 0, Has Platform.sample files (o.hash Platform.sample) o

theorem tooled_held : ∃ files, HoldsTooled files ∧ slots Platform.sample files =
    WriteOnce.puts (fun _ => none) ((tooled.objects Platform.sample 0).map (Object.write Platform.sample)) := by
  obtain ⟨files, _, put⟩ := stageCommit_puts (FsObjectStore.silent_accepts tooled) 0 (fun _ => none)
  have apart : ∀ o ∈ tooled.objects Platform.sample 0, ∀ o' ∈ tooled.objects Platform.sample 0,
      o.hash Platform.sample = o'.hash Platform.sample →
      (o.write Platform.sample).2 = (o'.write Platform.sample).2 := by decide +kernel
  exact ⟨files, fun o mem => has_of_puts put mem (Widens.refl files) (unshared_of_puts put apart mem), put⟩

/-- A daemon with this one commit. -/
def oneCommit (files : Files) : Daemon Unit :=
  { Daemon.start with repo := { objects := files, agentic := tooledRefs } }

def toMain : RollbackArgs where
  target := "main"
  dryRun := false
  acceptDataLoss := false
  approvalToken := none

def tooledAgain : CommitInputs Bytes :=
  recordInputs Platform.sample Daemon.quiet tooledHash (tooled.commit Platform.sample 0) (some tooledHash)
    none BTreeMap.empty tooled.tools tooled.model

theorem oneCommit_rolls_back {files : Files} (held : HoldsTooled files) : ∃ out objects agentic,
    (execute Platform.sample (fun _ m => m) Daemon.quiet toMain.live none 0 0).run (oneCommit files) =
      (.ok out, { oneCommit files with repo := { objects, agentic } }) ∧
    out.newHeadHash =
      some (Platform.sample.toHex ((Object.commit (tooledAgain.commit Platform.sample 0)).hash Platform.sample)) ∧
    slots Platform.sample objects = WriteOnce.puts (slots Platform.sample files)
      ((tooledAgain.objects Platform.sample 0).map (Object.write Platform.sample)) := by
  have head : (Refs.readHead Platform.sample).run tooledRefs = (.ok (some (.branch "main")), tooledRefs) :=
    Prod.ext (by decide +kernel) (Refs.readHead_still.run _)
  have tip : (Refs.readBranch Platform.sample "main").run tooledRefs = (.ok (some tooledHash), tooledRefs) :=
    tooledRefs_refines.readBranch (Function.update_self _ _ _)
  have resolved : (Refs.resolve Platform.sample "main").run tooledRefs =
      (.ok (some tooledHash), tooledRefs) := by
    rw [Refs.resolve, if_neg (by decide), if_neg (by decide)]
    exact tip
  have moved : (Refs.writeBranch Platform.sample "main"
      ((Object.commit (tooledAgain.commit Platform.sample 0)).hash Platform.sample)).run tooledRefs =
      (.ok (), _) := outcome_of (by decide +kernel)
  obtain ⟨objects, staged, put⟩ := stageCommit_puts (FsObjectStore.silent_accepts tooledAgain) 0 files
  have commit : Has Platform.sample files tooledHash (.commit (tooled.commit Platform.sample 0)) :=
    held _ (CommitInputs.commit_mem_objects tooled 0)
  have holds := HoldsInputs.of_objects held
  have toolsRead : (readTextBlobs Platform.sample (treeHash? Platform.sample tooled.tools) :
      DaemonProgram Bytes Unit _).run (oneCommit files) = (.ok tooled.tools, oneCommit files) :=
    run_readTextBlobs holds.tools
  have modelRead : (readModelText Platform.sample (tooled.commit Platform.sample 0) :
      DaemonProgram Bytes Unit _).run (oneCommit files) = (.ok tooled.model, oneCommit files) :=
    run_readModelText rfl holds.model
  have calm : toMain.live.acceptDataLoss = false := rfl
  have refs : (oneCommit files).repo.agentic = tooledRefs := rfl
  rw [← refs] at resolved head tip moved
  obtain ⟨out, head, ran⟩ := run_execute (d := oneCommit files) calm rfl rfl rfl rfl resolved commit head tip
    toolsRead modelRead staged moved
  exact ⟨out, objects, _, ran, head, put⟩

theorem dry_run_foretells_main : ∃ files dry out,
    (execute Platform.sample (fun _ m => m) Daemon.quiet toMain.dry none 0 0).run (oneCommit files) =
      (.ok dry, oneCommit files) ∧ Foretold Platform.sample dry out := by
  obtain ⟨files, held, _⟩ := tooled_held
  obtain ⟨out, objects, agentic, ran, _⟩ := oneCommit_rolls_back held
  obtain ⟨dry, foretold⟩ := (dry_run_foretells toMain none 0 0 (oneCommit files)).2 out _ ran
  exact ⟨files, dry, out, foretold⟩

end Rollback

end GitAgentic
