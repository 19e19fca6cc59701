import GitAgentic.Core.StagingRun
import GitAgentic.Daemon.Commit
import GitAgentic.Daemon.Rollback

/-! Operations of the daemon that nothing disturbs. -/
namespace GitAgentic

variable {Hash M : Type} [DecidableEq Hash] {P : Platform Hash} {config : DaemonConfig Hash M}

omit [DecidableEq Hash] in
theorem run_onDaemonRefs {α : Type} (p : Refs.RefsProgram Hash α) (d : Daemon M) :
    (onDaemonRefs p : DaemonProgram Hash M α).run d =
      ((p.run d.repo.agentic).1.mapError .core,
        { d with repo := { d.repo with agentic := (p.run d.repo.agentic).2 } }) := by
  unfold onDaemonRefs onRepository Repository.onRefs
  rw [Program.run_mapError, Program.run_focus, Program.run_focus]
  all_goals intros; rfl

omit [DecidableEq Hash] in
theorem run_onRepository {α : Type} (p : Program Repository (Error Hash) α) (d : Daemon M) :
    (onRepository p : DaemonProgram Hash M α).run d =
      ((p.run d.repo).1.mapError .core, { d with repo := (p.run d.repo).2 }) := by
  unfold onRepository
  rw [Program.run_mapError, Program.run_focus]
  all_goals intros; rfl

omit [DecidableEq Hash] in
theorem run_onWork {α : Type} (p : Program (FileTree Bytes) (DaemonError Hash) α) (d : Daemon M) :
    (onWork p : DaemonProgram Hash M α).run d = ((p.run d.work).1, { d with work := (p.run d.work).2 }) := by
  rw [onWork, Program.run_focus]
  all_goals intros; rfl

omit [DecidableEq Hash] in
theorem run_onStore {ε α : Type} (p : Program Files ε α) (d : Daemon M) :
    (onStore p : Program (Daemon M) ε α).run d = ((p.run d.repo.objects).1,
      { d with repo := { d.repo with objects := (p.run d.repo.objects).2 } }) := by
  rw [onStore, Program.run_focus]
  all_goals intros; rfl

omit [DecidableEq Hash] in
theorem run_readObjects {α : Type} (f : Files → Except (Error Hash) α) (d : Daemon M) :
    (readObjects f : DaemonProgram Hash M α).run d = ((f d.repo.objects).mapError .core, d) := by
  rw [readObjects, onDaemonObjects, Program.run_mapError, run_onStore, Program.run_read]

omit [DecidableEq Hash] in
theorem run_publishHead (branch : String) (first : Bool) (d : Daemon M) :
    (Commit.publishHead branch first : DaemonProgram Hash M Unit).run d =
      (.ok (), { d with
        repo :=
          { d.repo with
            agentic := if first then
              ((Refs.writeHeadSymbolic branch : Refs.RefsProgram Hash Unit).run d.repo.agentic).2
              else d.repo.agentic } }) := by
  rw [Commit.publishHead]
  cases first with
  | false => rfl
  | true =>
    rw [if_pos rfl]
    show (Program.bind _ _).run d = _
    rw [Program.run_bind, Program.run_attempt, run_onDaemonRefs]
    rfl

theorem Commit.run_execute_stages {d d₁ : Daemon M} {input : CommitInput} {peerUid : Option UInt32} {now : Int}
    {head : Option (HeadRef Hash)} {parent snapshot : Option Hash} {version : Option String} {hash : Hash}
    {objects : Files} {agentic : FileTree TextFile} (servers : config.mcpServers = [])
    (readHead : (Refs.readHead P).run d.repo.agentic = (.ok head, d.repo.agentic))
    (readBranch : (Refs.readBranch P (Commit.branchOf input head)).run d.repo.agentic =
      (.ok parent, d.repo.agentic))
    (snapped : (Commit.snapshotMemory P config input.noMemory).run d = (.ok (snapshot, version), d₁))
    (staged : (stageCommit P config.store (Commit.assembleInputs input parent snapshot version
      BTreeMap.empty peerUid config.exemptEntropyPrefixes) now).run d₁.repo.objects = (.ok hash, objects))
    (moved : (Refs.writeBranch P (Commit.branchOf input head) hash).run d₁.repo.agentic =
      (.ok (), agentic)) :
    (Commit.executeWithNow P config input peerUid [] now).run d =
      (.ok { commitHash := P.toHex hash, branch := Commit.branchOf input head },
        { d₁ with
          repo :=
            { objects
              agentic := if head.isNone then
                ((Refs.writeHeadSymbolic (Commit.branchOf input head) :
                  Refs.RefsProgram Hash Unit).run agentic).2 else agentic } }) := by
  show (Program.bind _ _).run d = _
  rw [Program.run_bind, withContext, Program.run_mapError, run_onDaemonRefs, readHead]
  show (Program.bind _ _).run d = _
  rw [Program.run_bind, withContext, Program.run_mapError, run_onDaemonRefs, readBranch]
  show (Program.bind (Commit.snapshotMemory P config input.noMemory) _).run d = _
  rw [Program.run_bind, snapped]
  show (Program.bind (Program.ofExcept (Commit.fingerprintTools config.mcpServers [])) _).run d₁ = _
  rw [Program.run_bind, Commit.fingerprintTools, if_pos servers]
  show (Program.bind _ _).run d₁ = _
  rw [Program.run_bind, withContext, Program.run_mapError, run_onRepository,
    run_stageAndCommit staged moved]
  show (Program.bind (Commit.publishHead _ head.isNone) _).run _ = _
  rw [Program.run_bind, run_publishHead]
  rfl

theorem Commit.run_execute {d : Daemon M} {input : CommitInput} {peerUid : Option UInt32} {now : Int}
    {head : Option (HeadRef Hash)} {parent : Option Hash} {hash : Hash} {objects : Files}
    {agentic : FileTree TextFile}
    (servers : config.mcpServers = []) (alone : input.noMemory = true)
    (readHead : (Refs.readHead P).run d.repo.agentic = (.ok head, d.repo.agentic))
    (readBranch : (Refs.readBranch P (Commit.branchOf input head)).run d.repo.agentic =
      (.ok parent, d.repo.agentic))
    (staged : (stageCommit P config.store (Commit.assembleInputs input parent none none
      BTreeMap.empty peerUid config.exemptEntropyPrefixes) now).run d.repo.objects = (.ok hash, objects))
    (moved : (Refs.writeBranch P (Commit.branchOf input head) hash).run d.repo.agentic =
      (.ok (), agentic)) :
    (Commit.executeWithNow P config input peerUid [] now).run d =
      (.ok { commitHash := P.toHex hash, branch := Commit.branchOf input head },
        { d with
          repo :=
            { objects
              agentic := if head.isNone then
                ((Refs.writeHeadSymbolic (Commit.branchOf input head) :
                  Refs.RefsProgram Hash Unit).run agentic).2 else agentic } }) := by
  have snapped : (Commit.snapshotMemory P config input.noMemory).run d = (.ok (none, none), d) := by
    rw [Commit.snapshotMemory, if_pos alone]
    rfl
  exact Commit.run_execute_stages servers readHead readBranch snapped staged moved

namespace Rollback

variable {d : Daemon M}

theorem run_loadCommit {hash : Hash} {c : Commit Hash} (has : Has P d.repo.objects hash (.commit c)) :
    (loadCommit P hash : DaemonProgram Hash M _).run d = (.ok c, d) := by
  have read : (readObjects (fun files => get P files hash) : DaemonProgram Hash M _).run d =
      (.ok (.commit c), d) := by
    rw [run_readObjects, has]
    rfl
  exact Program.run_bind_of_ok read

theorem run_loadTree {hash : Hash} {t : Tree Hash} (has : Has P d.repo.objects hash (.tree t)) :
    (loadTree P hash : DaemonProgram Hash M _).run d = (.ok t, d) := by
  have read : (readObjects (fun files => get P files hash) : DaemonProgram Hash M _).run d =
      (.ok (.tree t), d) := by
    rw [run_readObjects, has]
    rfl
  exact Program.run_bind_of_ok read

theorem run_loadBlob {hash : Hash} {b : Blob} (has : Has P d.repo.objects hash (.blob b)) :
    (loadBlob P hash : DaemonProgram Hash M _).run d = (.ok b, d) := by
  have read : (readObjects (fun files => get P files hash) : DaemonProgram Hash M _).run d =
      (.ok (.blob b), d) := by
    rw [run_readObjects, has]
    rfl
  exact Program.run_bind_of_ok read

theorem run_collect {hash : Hash} {entries : List (String × Bytes)}
    (held : ∀ e ∈ entries, Has P d.repo.objects (P.of e.2) (.blob ⟨e.2⟩)) (out : BTreeMap String Bytes) :
    (treeToMap.collect P hash (entries.map (fun e => (e.1, ⟨.blob, P.of e.2⟩))) out :
      DaemonProgram Hash M _).run d = (.ok (entries.foldl (fun m e => m.insert e.1 e.2) out), d) := by
  induction entries generalizing out with
  | nil => rfl
  | cons e rest ih =>
    unfold treeToMap.collect
    refine (Program.run_bind_of_ok (run_loadBlob (held e List.mem_cons_self))).trans ?_
    exact ih (fun e' mem => held e' (List.mem_cons_of_mem e mem)) _

theorem run_readTextBlobs {x : BTreeMap String Bytes} (held : HoldsTree P d.repo.objects x) :
    (readTextBlobs P (treeHash? P x) : DaemonProgram Hash M _).run d = (.ok x, d) := by
  unfold treeHash?
  by_cases empty : x.entries = []
  · rw [if_pos empty]
    have same : x = BTreeMap.empty := BTreeMap.ext empty
    rw [same]
    rfl
  · rw [if_neg empty]
    refine (Program.run_bind_of_ok (run_loadTree (held.tree empty))).trans ?_
    rw [treeOf_entries, run_collect held.blobs]
    exact congrArg (fun m => (Except.ok m, d)) (BTreeMap.ofList_entries x)

theorem run_readModelText {target : Commit Hash} {model : Option String}
    (named : target.model = (modelBytes model).map P.of)
    (held : HoldsBlob P d.repo.objects (modelBytes model)) :
    (readModelText P target : DaemonProgram Hash M _).run d = (.ok model, d) := by
  unfold readModelText
  cases model with
  | none =>
    have absent : target.model = none := named
    simp only [absent]
    rfl
  | some text =>
    have there : target.model = some (P.of (utf8 text.toList)) := named
    simp only [there]
    refine (Program.run_bind_of_ok (run_loadBlob (held _ rfl))).trans ?_
    simp only [fromUtf8_utf8]
    rfl

theorem run_forwardRecord {hash : Hash} {target : Commit Hash} {branch : String} {tip : Option Hash}
    {peerUid : Option UInt32} {now : Int} {prompts tools : BTreeMap String Bytes} {model : Option String}
    {recorded : Hash} {objects : Files} {agentic : FileTree TextFile}
    (promptsRead : (readTextBlobs P target.prompts : DaemonProgram Hash M _).run d = (.ok prompts, d))
    (toolsRead : (readTextBlobs P target.tools : DaemonProgram Hash M _).run d = (.ok tools, d))
    (modelRead : (readModelText P target : DaemonProgram Hash M _).run d = (.ok model, d))
    (staged : (stageCommit P config.store (recordInputs P config hash target tip peerUid
      prompts tools model) now).run d.repo.objects = (.ok recorded, objects))
    (moved : (Refs.writeBranch P branch recorded).run d.repo.agentic = (.ok (), agentic)) :
    (forwardRecord P config hash target branch tip peerUid now).run d =
      (.ok { commitHash := recorded, branch }, { d with repo := { objects, agentic } }) := by
  refine (Program.run_bind_of_ok promptsRead).trans ((Program.run_bind_of_ok toolsRead).trans ?_)
  refine (Program.run_bind_of_ok modelRead).trans (Program.run_mapError_eq_ok_iff.mpr ?_)
  rw [run_onRepository, run_stageAndCommit staged moved]
  rfl

omit [DecidableEq Hash] in
theorem run_onAgentic {α : Type} (p : Program (FileTree TextFile) (DaemonError Hash) α) (d : Daemon M) :
    (onAgentic p : DaemonProgram Hash M α).run d = ((p.run d.repo.agentic).1,
      { d with repo := { d.repo with agentic := (p.run d.repo.agentic).2 } }) := by
  unfold onAgentic
  rw [Program.run_focus]
  all_goals intros; rfl

theorem run_execute_stages {hmac : Hmac} {args : RollbackArgs} {peerUid : Option UInt32} {nowSeconds : UInt64}
    {now : Int} {hash : Hash} {target : Commit Hash} {branch : String} {tip : Option Hash}
    {memoryPlan promptsPlan : List String} {recorded : CommitOutputs Hash} {d₁ d₂ d' : Daemon M}
    (approved : checkApproval P hmac config args hash peerUid nowSeconds = .ok ()) (live : args.dryRun = false)
    (shaped : validateTargetShape P target hash = .ok ())
    (resolved : (Refs.resolve P args.target).run d.repo.agentic = (.ok (some hash), d.repo.agentic))
    (has : Has P d.repo.objects hash (.commit target))
    (head : (Refs.readHead P).run d.repo.agentic = (.ok (some (.branch branch)), d.repo.agentic))
    (tipRead : (Refs.readBranch P branch).run d.repo.agentic = (.ok tip, d.repo.agentic))
    (restored : (memoryStep P config args target).run d = (.ok memoryPlan, d₁))
    (rewritten : (promptsStep P config args target).run d₁ = (.ok promptsPlan, d₂))
    (record : (forwardRecord P config hash target branch tip peerUid now).run d₂ = (.ok recorded, d')) :
    ∃ out, out.newHeadHash = some (P.toHex recorded.commitHash) ∧
      (execute P hmac config args peerUid nowSeconds now).run d = (.ok out, d') := by
  have onRefs : ∀ {α : Type} {p : Refs.RefsProgram Hash α} {a : α},
      p.run d.repo.agentic = (.ok a, d.repo.agentic) →
      (onDaemonRefs p : DaemonProgram Hash M α).run d = (.ok a, d) := by
    intro α p a ran
    rw [run_onDaemonRefs, ran]
    rfl
  have first : (resolveTarget P args.target : DaemonProgram Hash M _).run d = (.ok hash, d) :=
    Program.run_bind_of_ok (onRefs resolved)
  have named : (headBranch P : DaemonProgram Hash M _).run d = (.ok branch, d) :=
    Program.run_bind_of_ok (onRefs head)
  let plan := planOf P hash target tip ++ memoryPlan ++ promptsPlan ++ followUps target
  refine ⟨⟨plan ++ ["forward-recorded rollback as " ++ P.short recorded.commitHash ++ " on " ++ recorded.branch],
    true, some (P.toHex recorded.commitHash)⟩, rfl, (Program.run_bind_of_ok first).trans ?_⟩
  rw [approved]
  refine (Program.run_bind_of_ok (run_loadCommit has)).trans ?_
  rw [shaped]
  refine (Program.run_bind_of_ok named).trans ((Program.run_bind_of_ok (onRefs tipRead)).trans ?_)
  refine (Program.run_bind_of_ok restored).trans ((Program.run_bind_of_ok rewritten).trans ?_)
  rw [live]
  exact (Program.run_bind_of_ok record).trans rfl

theorem run_execute {hmac : Hmac} {args : RollbackArgs} {peerUid : Option UInt32} {nowSeconds : UInt64}
    {now : Int} {hash : Hash} {target : Commit Hash} {branch : String} {tip : Option Hash}
    {tools : BTreeMap String Bytes} {model : Option String} {recorded : Hash} {objects : Files}
    {agentic : FileTree TextFile} (calm : args.acceptDataLoss = false) (live : args.dryRun = false)
    (schema : target.schemaVersion = none) (memory : target.memorySnapshot = none)
    (prompts : target.prompts = none)
    (resolved : (Refs.resolve P args.target).run d.repo.agentic = (.ok (some hash), d.repo.agentic))
    (has : Has P d.repo.objects hash (.commit target))
    (head : (Refs.readHead P).run d.repo.agentic = (.ok (some (.branch branch)), d.repo.agentic))
    (tipRead : (Refs.readBranch P branch).run d.repo.agentic = (.ok tip, d.repo.agentic))
    (toolsRead : (readTextBlobs P target.tools : DaemonProgram Hash M _).run d = (.ok tools, d))
    (modelRead : (readModelText P target : DaemonProgram Hash M _).run d = (.ok model, d))
    (staged : (stageCommit P config.store (recordInputs P config hash target tip peerUid
      BTreeMap.empty tools model) now).run d.repo.objects = (.ok recorded, objects))
    (moved : (Refs.writeBranch P branch recorded).run d.repo.agentic = (.ok (), agentic)) :
    ∃ out, out.newHeadHash = some (P.toHex recorded) ∧
      (execute P hmac config args peerUid nowSeconds now).run d =
        (.ok out, { d with repo := { objects, agentic } }) := by
  have approved : checkApproval P hmac config args hash peerUid nowSeconds = .ok () :=
    if_neg (by rw [calm]; exact Bool.false_ne_true)
  have shaped : validateTargetShape P target hash = .ok () :=
    if_neg (fun both => absurd both.1 (by rw [memory]; exact Bool.false_ne_true))
  obtain ⟨memoryPlan, restored⟩ : ∃ plan, (memoryStep P config args target).run d = (.ok plan, d) := by
    simp only [memoryStep, schema]
    exact ⟨_, rfl⟩
  obtain ⟨promptsPlan, rewritten⟩ : ∃ plan, (promptsStep P config args target).run d = (.ok plan, d) := by
    simp only [promptsStep, prompts]
    exact ⟨_, rfl⟩
  have promptsRead : (readTextBlobs P target.prompts : DaemonProgram Hash M _).run d =
      (.ok BTreeMap.empty, d) := by
    rw [prompts]
    rfl
  exact run_execute_stages approved live shaped resolved has head tipRead restored rewritten
    (run_forwardRecord promptsRead toolsRead modelRead staged moved)

end Rollback

/- A repository that is opened for the first time, and gets a commit. -/

namespace Refs

/-- `main` is at the commit, and `HEAD` names it. -/
def onMain (P : Platform Hash) (hash : Hash) : FileTree TextFile :=
  ((writeHeadSymbolic "main" : RefsProgram Hash Unit).run ((writeBranch P "main" hash).run opened).2).2

omit [DecidableEq Hash] in
theorem onMain_refines {hash : Hash} (moved : ((writeBranch P "main" hash).run opened).1 = .ok ()) :
    Refines P (Function.update (fun _ => none) "main" (some hash)) (onMain P hash) := by
  have fresh : Refines P (fun _ => none) opened := opened_fresh.refines
  have first := (writeBranch_safe fresh "main" hash : Program.Safe False _ _ _ _).run
  rw [moved] at first
  have second := (writeHeadSymbolic_safe first.2.2 "main" : Program.Safe False _ _ _ _).run
  exact second.2.1

omit [DecidableEq Hash] in
theorem onMain_tip {hash : Hash} (moved : ((writeBranch P "main" hash).run opened).1 = .ok ()) :
    (readBranch P "main").run (onMain P hash) = (.ok (some hash), onMain P hash) :=
  (onMain_refines moved).readBranch (Function.update_self _ _ _)

omit [DecidableEq Hash] in
theorem onMain_resolve {hash : Hash} (moved : ((writeBranch P "main" hash).run opened).1 = .ok ()) :
    (resolve P "main").run (onMain P hash) = (.ok (some hash), onMain P hash) := by
  rw [resolve, if_neg (by decide), if_neg (by decide)]
  exact onMain_tip moved

end Refs

end GitAgentic
