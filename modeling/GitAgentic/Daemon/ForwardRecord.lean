import GitAgentic.Core.DiffPatch
import GitAgentic.Daemon.DryRun
import GitAgentic.Daemon.Undisturbed

/-! The record of a rollback: what is read back of the target is staged anew, and gives the
target's dimensions on top of the branch. -/
namespace GitAgentic

variable {Hash M : Type} [DecidableEq Hash] {P : Platform Hash} {hmac : Hmac}
  {config : DaemonConfig Hash M} {d d' d'' : Daemon M} {α β : Type}

/-- What is stored stays, and the refs are as they were. -/
structure Onward (P : Platform Hash) (d d' : Daemon M) : Prop where
  kept : Widens P d.repo.objects d'.repo.objects
  refs : d'.repo.agentic = d.repo.agentic

omit [DecidableEq Hash] in
theorem Onward.of_repo (same : d'.repo = d.repo) : Onward P d d' := by
  constructor
  · rw [same]
    exact Widens.refl _
  · rw [same]

omit [DecidableEq Hash] in
theorem Onward.trans (first : Onward P d d') (second : Onward P d' d'') : Onward P d d'' :=
  ⟨first.kept.trans second.kept, second.refs.trans first.refs⟩

def GoesOn (P : Platform Hash) (p : DaemonProgram Hash M α) : Prop := ∀ d, Onward P d (p.run d).2

namespace GoesOn

omit [DecidableEq Hash] in
theorem still {p : DaemonProgram Hash M α} (still : p.Still) : GoesOn P p := by
  intro d
  rw [still.run d]
  exact Onward.of_repo rfl

omit [DecidableEq Hash] in
theorem bind {p : DaemonProgram Hash M α} {k : α → DaemonProgram Hash M β} (first : GoesOn P p)
    (next : ∀ a, GoesOn P (k a)) : GoesOn P (p.bind k) := by
  intro d
  have begun := first d
  rw [Program.run_bind]
  cases ran : p.run d with
  | mk outcome d₁ =>
    rw [ran] at begun
    cases outcome with
    | error e => exact begun
    | ok a => exact begun.trans (next a d₁)

omit [DecidableEq Hash] in
theorem mapError {p : DaemonProgram Hash M α} {f : DaemonError Hash → DaemonError Hash}
    (h : GoesOn P p) : GoesOn P (p.mapError f) := by
  intro d
  rw [Program.run_mapError]
  exact h d

omit [DecidableEq Hash] in
theorem attempt {p : DaemonProgram Hash M α} (h : GoesOn P p) :
    GoesOn P (p.attempt : DaemonProgram Hash M (Except (DaemonError Hash) α)) := by
  intro d
  rw [Program.run_attempt]
  exact h d

omit [DecidableEq Hash] in
theorem onWork (p : Program (FileTree Bytes) (DaemonError Hash) α) :
    GoesOn P (onWork p : DaemonProgram Hash M α) := by
  intro d
  rw [run_onWork]
  exact Onward.of_repo rfl

omit [DecidableEq Hash] in
theorem forEach {f : β → DaemonProgram Hash M Unit} (bs : List β) (each : ∀ b, GoesOn P (f b)) :
    GoesOn P (Program.forEach f bs) := by
  induction bs with
  | nil => exact still trivial
  | cons b bs ih => exact bind (each b) (fun _ => ih)

theorem putSegment (S : FsObjectStore Hash) (bytes : Bytes) :
    GoesOn P (onStore (S.putRawProgram P .segment bytes).attempt :
      DaemonProgram Hash M (Except (Error Hash) Hash)) := by
  intro d
  rw [run_onStore, Program.run_attempt, run_putRawProgram]
  refine ⟨fun hash compressed slot => ?_, rfl⟩
  rcases putRaw_cases P S .segment bytes d.repo.objects with ⟨hits, refused⟩ | ⟨files, accepted, written⟩
  · rw [refused]
    exact slot
  · rw [accepted]
    show slots P files hash = some compressed
    rw [written, WriteOnce.put_apply]
    split
    · rename_i here
      subst here
      rw [slot]
      rfl
    · exact slot

theorem toProgram {S : FsObjectStore Hash} (p : AdapterProgram Hash M α) : GoesOn P (p.toProgram P S) := by
  induction p with
  | done r => exact still trivial
  | act step next fault ih _ =>
    intro d
    have begun : Onward P d { d with memory := step d.memory } := Onward.of_repo rfl
    exact begun.trans (ih d.memory _)
  | putSegment segment next ih => exact bind (putSegment S _) ih
  | getSegment hash next ih =>
    refine bind (still ?_) ih
    exact Program.Still.focus (fun _ => rfl) ⟨rfl, fun _ => trivial, trivial⟩

theorem loadManifest (hash : Hash) : GoesOn P (Rollback.loadManifest P hash : DaemonProgram Hash M _) :=
  still (Program.Still.bind (readObjects_still _) (fun _ => Program.Still.mapError trivial))

theorem applySteps (adapter : MemoryAdapter Hash M) (steps : List MigrationStep) :
    GoesOn P (Rollback.applySteps P config adapter steps) := by
  refine mapError (fun d => ?_)
  have handed : Onward P d { d with reversed := d.reversed ++ steps } := Onward.of_repo rfl
  exact handed.trans (toProgram (adapter.applyReverseMigrations steps) _)

theorem reverseMigrations (adapter : MemoryAdapter Hash M) (args : RollbackArgs)
    (targetSchema : String) :
    GoesOn P (Rollback.reverseMigrations P config adapter args targetSchema) := by
  refine bind (still (Rollback.readMemory_still _ _)) (fun live => ?_)
  dsimp only
  split
  · exact still trivial
  refine bind (still (Rollback.readMemory_still _ _)) (fun names => ?_)
  refine bind (still (Rollback.loadSteps_context_still _ _ _)) (fun steps => ?_)
  by_cases dry : args.dryRun = true
  · rw [if_pos dry]
    exact still trivial
  · rw [if_neg dry]
    exact bind (applySteps adapter steps) (fun _ => still trivial)

theorem restoreMemory (adapter : MemoryAdapter Hash M) (manifestHash : Hash) (targetSchema : String) :
    GoesOn P (Rollback.restoreMemory P config adapter manifestHash targetSchema) := by
  refine bind (loadManifest manifestHash) (fun manifest => ?_)
  refine bind (mapError (toProgram adapter.beginRestore)) (fun _ => ?_)
  refine bind (attempt (mapError (toProgram _))) (fun restored d => ?_)
  exact Onward.of_repo rfl

theorem memoryStep (args : RollbackArgs) (target : Commit Hash) :
    GoesOn P (Rollback.memoryStep P config args target) := by
  unfold Rollback.memoryStep
  split
  · exact still trivial
  split
  · exact still trivial
  refine bind (reverseMigrations _ args _) (fun planned => ?_)
  dsimp only
  split
  · exact still trivial
  by_cases dry : args.dryRun = true
  · rw [if_pos dry]
    exact still trivial
  · rw [if_neg dry]
    exact bind (restoreMemory _ _ _) (fun _ => still trivial)

end GoesOn

namespace Rollback

theorem loadTree_still (hash : Hash) : (loadTree P hash : DaemonProgram Hash M _).Still := by
  refine Program.Still.bind (readObjects_still _) (fun object => ?_)
  cases object with
  | tree t => trivial
  | blob _ | commit _ => trivial

theorem loadBlob_still (hash : Hash) : (loadBlob P hash : DaemonProgram Hash M _).Still := by
  refine Program.Still.bind (readObjects_still _) (fun object => ?_)
  cases object with
  | blob b => trivial
  | tree _ | commit _ => trivial

end Rollback

theorem GoesOn.promptsStep (args : RollbackArgs) (target : Commit Hash) :
    GoesOn P (Rollback.promptsStep P config args target) := by
  unfold Rollback.promptsStep
  split
  · exact still trivial
  rename_i promptsHash _
  by_cases dry : args.dryRun = true
  · rw [if_pos dry]
    exact still trivial
  rw [if_neg dry]
  refine bind (bind (onWork _) (fun _ => ?_)) (fun _ => still trivial)
  refine bind (still (Rollback.loadTree_still promptsHash)) (fun tree => ?_)
  refine bind (forEach _ (fun e => ?_)) (fun _ => onWork _)
  refine bind (still (Program.Still.ofExcept _)) (fun _ => bind (onWork _) (fun _ => ?_))
  exact bind (still (Rollback.loadBlob_still e.2.hash)) (fun blob => onWork _)

namespace Rollback

theorem hash_of_get {files : Files} {hash : Hash} {o : Object Hash} (found : get P files hash = .ok o) :
    o.hash P = hash := by
  obtain ⟨compressed, slot⟩ := Option.isSome_iff_exists.mp (slot_of_get found)
  cases decoded : P.decodeAll compressed with
  | none =>
    have unread : get P files hash = .error .io := by
      have path : files (pathFor P hash) = some compressed := slot
      simp only [get, readAt, path, decoded]
      rfl
    rw [unread] at found
    cases found
  | some bytes =>
    have holds : held P files hash = some bytes := by
      rw [held, slot, Option.bind_some, decoded]
    exact ((get_eq_ok_iff P holds).mp found).2

/- What was staged is read back. -/

omit [DecidableEq Hash] in
theorem core_ok {r : Except (Error Hash) α} {a : α}
    (ok : (r.mapError DaemonError.core : Except (DaemonError Hash) α) = .ok a) : r = .ok a := by
  cases r with
  | error e => cases ok
  | ok b =>
    cases ok
    rfl

theorem loadCommit_run {hash : Hash} {c : Commit Hash}
    (ran : (loadCommit P hash : DaemonProgram Hash M _).run d = (.ok c, d')) :
    get P d.repo.objects hash = .ok (.commit c) := by
  obtain ⟨object, d₁, read, rest⟩ := Program.run_bind_eq_ok_iff.mp ran
  rw [run_readObjects] at read
  have found := core_ok (congrArg Prod.fst read)
  cases object with
  | commit c' =>
    cases rest
    exact found
  | blob _ | tree _ => cases rest

theorem loadTree_run {hash : Hash} {t : Tree Hash}
    (ran : (loadTree P hash : DaemonProgram Hash M _).run d = (.ok t, d')) :
    get P d.repo.objects hash = .ok (.tree t) := by
  obtain ⟨object, d₁, read, rest⟩ := Program.run_bind_eq_ok_iff.mp ran
  rw [run_readObjects] at read
  have found := core_ok (congrArg Prod.fst read)
  cases object with
  | tree t' =>
    cases rest
    exact found
  | blob _ | commit _ => cases rest

theorem loadBlob_run {bytes : Bytes} {b : Blob}
    (ran : (loadBlob P (P.of bytes) : DaemonProgram Hash M _).run d = (.ok b, d')) : b = ⟨bytes⟩ := by
  obtain ⟨object, d₁, read, rest⟩ := Program.run_bind_eq_ok_iff.mp ran
  rw [run_readObjects] at read
  have found := core_ok (congrArg Prod.fst read)
  cases object with
  | blob b' =>
    cases rest
    have same : P.of b.bytes = P.of bytes := hash_of_get found
    rw [← P.of_injective same]
  | tree _ | commit _ => cases rest

theorem collect_run {hash : Hash} {entries : List (String × Bytes)} {out m : BTreeMap String Bytes}
    (ran : (treeToMap.collect P hash (entries.map (fun e => (e.1, ⟨.blob, P.of e.2⟩))) out :
      DaemonProgram Hash M _).run d = (.ok m, d')) :
    m = entries.foldl (fun m e => m.insert e.1 e.2) out := by
  induction entries generalizing out with
  | nil =>
    cases ran
    rfl
  | cons e rest ih =>
    unfold treeToMap.collect at ran
    obtain ⟨blob, loaded, others⟩ := (loadBlob_still _).then_ok ran
    rw [loadBlob_run loaded] at others
    exact ih others

theorem readTextBlobs_run {x m : BTreeMap String Bytes}
    (ran : (readTextBlobs P (treeHash? P x) : DaemonProgram Hash M _).run d = (.ok m, d')) : m = x := by
  unfold treeHash? at ran
  by_cases empty : x.entries = []
  · rw [if_pos empty] at ran
    cases ran
    exact BTreeMap.ext empty.symm
  · rw [if_neg empty] at ran
    obtain ⟨tree, loaded, rest⟩ := (loadTree_still _).then_ok ran
    have address := hash_of_get (loadTree_run loaded)
    have same : tree = treeOf P x :=
      Object.tree.inj (Object.preimage_inj P rfl (P.of_injective address))
    rw [same, treeOf_entries] at rest
    rw [collect_run rest]
    exact BTreeMap.ofList_entries x

theorem readModelText_run {target : Commit Hash} {model found : Option String}
    (named : target.model = (modelBytes model).map P.of)
    (ran : (readModelText P target : DaemonProgram Hash M _).run d = (.ok found, d')) :
    found = model := by
  unfold readModelText at ran
  cases model with
  | none =>
    have absent : target.model = none := named
    simp only [absent] at ran
    cases ran
    rfl
  | some text =>
    have there : target.model = some (P.of (utf8 text.toList)) := named
    simp only [there] at ran
    obtain ⟨blob, loaded, rest⟩ := (loadBlob_still _).then_ok ran
    rw [loadBlob_run loaded] at rest
    simp only [fromUtf8_utf8] at rest
    cases rest
    rfl

theorem collect_still (hash : Hash) (entries : List (String × TypedRef Hash))
    (out : BTreeMap String Bytes) :
    (treeToMap.collect P hash entries out : DaemonProgram Hash M _).Still := by
  induction entries generalizing out with
  | nil => trivial
  | cons e rest ih =>
    unfold treeToMap.collect
    split
    · trivial
    · exact Program.Still.bind (loadBlob_still _) (fun blob => ih _)

theorem readTextBlobs_still (hash : Option Hash) :
    (readTextBlobs P hash : DaemonProgram Hash M _).Still := by
  cases hash with
  | none => trivial
  | some hash => exact Program.Still.bind (loadTree_still hash) (fun tree => collect_still _ _ _)

theorem readModelText_still (target : Commit Hash) :
    (readModelText P target : DaemonProgram Hash M _).Still := by
  unfold readModelText
  split
  · trivial
  · refine Program.Still.bind (loadBlob_still _) (fun blob => ?_)
    split
    · trivial
    · trivial

variable {inputs : CommitInputs Hash} {t now : Int} {branch : String} {tip : Option Hash}
  {peerUid : Option UInt32}

variable (P config) in
def againInputs (inputs : CommitInputs Hash) (t : Int) (tip : Option Hash) (peerUid : Option UInt32) :
    CommitInputs Hash :=
  recordInputs P config ((Object.commit (inputs.commit P t)).hash P) (inputs.commit P t) tip peerUid
    inputs.prompts inputs.tools inputs.model

theorem forwardRecord_run {out : CommitOutputs Hash}
    (ran : (forwardRecord P config ((Object.commit (inputs.commit P t)).hash P) (inputs.commit P t)
      branch tip peerUid now).run d = (.ok out, d')) :
    StagedRun P branch (againInputs P config inputs t tip peerUid) now d.repo d'.repo out := by
  obtain ⟨prompts, readPrompts, ran⟩ := (readTextBlobs_still _).then_ok ran
  obtain ⟨tools, readTools, ran⟩ := (readTextBlobs_still _).then_ok ran
  obtain ⟨model, readModel, ran⟩ := (readModelText_still _).then_ok ran
  obtain rfl := readTextBlobs_run (x := inputs.prompts) readPrompts
  obtain rfl := readTextBlobs_run (x := inputs.tools) readTools
  have named : (inputs.commit P t).model = (modelBytes inputs.model).map P.of := rfl
  obtain rfl := readModelText_run named readModel
  have staged := Program.run_mapError_eq_ok_iff.mp ran
  rw [run_onRepository] at staged
  have ended := core_ok (congrArg Prod.fst staged)
  have after : ((stageAndCommitWithNow P config.store branch (againInputs P config inputs t tip peerUid)
      now).run d.repo).2 = d'.repo := congrArg (fun r => r.2.repo) staged
  exact stageAndCommit_staged (Prod.ext ended after)

omit [DecidableEq Hash] in
theorem again_agrees (inputs : CommitInputs Hash) (t now : Int) (tip : Option Hash)
    (peerUid : Option UInt32) :
    Diff.Agree (inputs.commit P t) ((againInputs P config inputs t tip peerUid).commit P now) :=
  ⟨rfl, rfl, rfl, rfl, rfl, rfl⟩

omit [DecidableEq Hash] in
theorem onDaemonRefs_run {p : Refs.RefsProgram Hash α} {a : α}
    (ran : (onDaemonRefs p : DaemonProgram Hash M α).run d = (.ok a, d')) :
    (p.run d.repo.agentic).1 = .ok a := by
  rw [run_onDaemonRefs] at ran
  exact core_ok (congrArg Prod.fst ran)

omit [DecidableEq Hash] in
theorem resolveTarget_run {target : String} {hash : Hash}
    (ran : (resolveTarget P target : DaemonProgram Hash M _).run d = (.ok hash, d')) :
    ((Refs.resolve P target).run d.repo.agentic).1 = .ok (some hash) := by
  obtain ⟨found, d₁, looked, rest⟩ := Program.run_bind_eq_ok_iff.mp ran
  cases found with
  | none => cases rest
  | some h =>
    cases rest
    exact onDaemonRefs_run looked

omit [DecidableEq Hash] in
theorem headBranch_run {branch : String}
    (ran : (headBranch P : DaemonProgram Hash M _).run d = (.ok branch, d')) :
    ((Refs.readHead P).run d.repo.agentic).1 = .ok (some (.branch branch)) := by
  obtain ⟨head, d₁, looked, rest⟩ := Program.run_bind_eq_ok_iff.mp ran
  rcases head with _ | (b | hash)
  · cases rest
  · cases rest
    exact onDaemonRefs_run looked
  · cases rest

omit [DecidableEq Hash] in
theorem readBranch_run {w : String → Option Hash} (refines : Refs.Refines P w d.repo.agentic)
    {branch : String} {tip : Option Hash}
    (ran : (onDaemonRefs (Refs.readBranch P branch) : DaemonProgram Hash M _).run d = (.ok tip, d')) :
    tip = w branch :=
  ((Refs.readBranch_safe refines branch : Program.Safe False _ _ _ _).run.2 tip
    (onDaemonRefs_run ran)).2 id

omit [DecidableEq Hash] in
theorem readHead_congr {u u' : FileTree TextFile}
    (same : u'.node? headPath = u.node? headPath) :
    ((Refs.readHead P).run u').1 = ((Refs.readHead P).run u).1 := by
  have text : (Refs.readToString u' headPath : Except (Error Hash) String) =
      Refs.readToString u headPath := by
    rw [Refs.readToString, Refs.readToString, FileTree.file?, FileTree.file?, same]
  show ((Program.bind (Refs.pathExists _) _).run u').1 = ((Program.bind (Refs.pathExists _) _).run u).1
  rw [Program.run_bind, Program.run_bind, Refs.pathExists]
  cases there : (u.node? headPath).isSome with
  | false =>
    simp only [Program.run, same, there]
    rfl
  | true =>
    simp only [Program.run, same, there, if_true]
    show ((Program.bind (Program.read _ _) _).run u').1 = ((Program.bind (Program.read _ _) _).run u).1
    rw [Program.run_bind, Program.run_bind, Program.run_read, Program.run_read, text]
    cases (Refs.readToString u headPath : Except (Error Hash) String) with
    | error e => rfl
    | ok raw =>
      dsimp only
      split
      · rfl
      · show ((Program.bind (Program.ofExcept _) _).run u').1 = ((Program.bind (Program.ofExcept _) _).run u).1
        cases Refs.parseHash P (trim raw.toList) <;> rfl

end Rollback

theorem StagedRun.widens {branch : String} {inputs : CommitInputs Hash} {now : Int} {r r' : Repository}
    {out : CommitOutputs Hash} (h : StagedRun P branch inputs now r r' out) :
    Widens P r.objects r'.objects := by
  intro hash compressed slot
  rw [h.objects, WriteOnce.puts_apply, slot]
  rfl

theorem Diff.diff_agree {store : Hash → Except (Error Hash) (Object Hash)} {h h' : Hash}
    {a b : Commit Hash} (there : store h = .ok (.commit a)) (there' : store h' = .ok (.commit b))
    (agree : Agree a b) : ∃ e, diff store h h' = .ok e ∧ e.isEmpty = true := by
  have tree : ∀ x : Option Hash, diffTree store x x = .ok none := fun x => if_pos rfl
  have model : ∀ x : Option Hash, diffModelBlob store x x = .ok none := fun x => if_pos rfl
  have strings : ∀ x : Option String, stringChange x x = none := fun x => if_pos rfl
  have hashes : ∀ x : Option Hash, hashChange x x = none := fun x => if_pos rfl
  refine ⟨⟨h, h', none, none, none, none, none, none⟩, ?_, rfl⟩
  simp only [diff, loadCommit_of there, loadCommit_of there', bind, Except.bind, agree.codeSha,
    agree.prompts, agree.tools, agree.model, agree.memorySnapshot, agree.schemaVersion, tree, model,
    strings, hashes]
  rfl

namespace Rollback

variable (P) in
/-- What the rollback recorded on the branch for the target: its dimensions on top of the
old tip. The branch has moved there; the other branches and `HEAD` are as they were. -/
structure Recorded (w : String → Option Hash) (d d' : Daemon M) (targetHash : Hash)
    (target : Commit Hash) (branch : String) (c : Commit Hash) : Prop where
  dimensions : Diff.Agree target c
  parent : c.parent = w branch
  head : ((Refs.readHead P).run d.repo.agentic).1 = .ok (some (.branch branch)) ∧
    ((Refs.readHead P).run d'.repo.agentic).1 = .ok (some (.branch branch))
  branches : Refs.Serves P (Function.update w branch (some ((Object.commit c).hash P))) d'.repo.agentic
  unchanged : Unshared P d'.repo.objects (.commit c) →
    get P d'.repo.objects ((Object.commit c).hash P) = .ok (.commit c) ∧
    ∃ e, Diff.diff (get P d'.repo.objects) targetHash ((Object.commit c).hash P) = .ok e ∧
      e.isEmpty = true

/-- Whatever inputs the target was staged from: when a rollback to it succeeds, the commit
it records has the target's dimensions, read back and staged anew. -/
theorem forward_record {S : FsObjectStore Hash} {w : String → Option Hash}
    {inputs : CommitInputs Hash} {t : Int} {origin : String} {r r' : Repository}
    {target : CommitOutputs Hash} {args : RollbackArgs} {peerUid : Option UInt32}
    {nowSeconds : UInt64} {now : Int} {out : RollbackOutput}
    (refines : Refs.Refines P w d.repo.agentic)
    (produced : (stageAndCommitWithNow P S origin inputs t).run r = (.ok target, r'))
    (resolved : ((Refs.resolve P args.target).run d.repo.agentic).1 = .ok (some target.commitHash))
    (ran : (execute P hmac config args.live peerUid nowSeconds now).run d = (.ok out, d')) :
    ∃ branch c, out.newHeadHash = some (P.toHex ((Object.commit c).hash P)) ∧
      Recorded P w d d' target.commitHash (inputs.commit P t) branch c := by
  rw [(stageAndCommit_staged produced).address] at resolved ⊢
  obtain ⟨hash, looked, ran⟩ := (resolveTarget_still _).then_ok ran
  have same := Except.ok.inj ((resolveTarget_run looked).symm.trans resolved)
  obtain rfl := Option.some.inj same
  obtain ⟨_, _, ran⟩ := (Program.Still.ofExcept _).then_ok ran
  obtain ⟨loaded, read, ran⟩ := (loadCommit_still _).then_ok ran
  have there := loadCommit_run read
  obtain rfl : loaded = inputs.commit P t :=
    Object.commit.inj (Object.preimage_inj P rfl (P.of_injective (hash_of_get there)))
  obtain ⟨_, _, ran⟩ := (Program.Still.ofExcept _).then_ok ran
  obtain ⟨branch, named, ran⟩ := headBranch_still.then_ok ran
  obtain ⟨tip, tipRead, ran⟩ := (onDaemonRefs_still (Refs.readBranch_still branch)).then_ok ran
  obtain rfl := readBranch_run refines tipRead
  obtain ⟨_, d₁, restored, ran⟩ := Program.run_bind_eq_ok_iff.mp ran
  obtain ⟨_, d₂, rewritten, ran⟩ := Program.run_bind_eq_ok_iff.mp ran
  obtain ⟨recorded, d₃, staged, ended⟩ := Program.run_bind_eq_ok_iff.mp ran
  cases ended
  have before : Onward P d d₂ := by
    have memory : GoesOn P (Rollback.memoryStep P config args.live (inputs.commit P t)) :=
      GoesOn.memoryStep _ _
    have prompts : GoesOn P (Rollback.promptsStep P config args.live (inputs.commit P t)) :=
      GoesOn.promptsStep _ _
    have first := memory d
    have second := prompts d₁
    rw [restored] at first
    rw [rewritten] at second
    exact first.trans second
  have run := forwardRecord_run staged
  have moved := (Refs.writeBranch_safe (before.refs ▸ refines) branch recorded.commitHash :
    Program.Safe False _ _ _ _).run
  rw [run.refs] at moved
  rw [run.address] at moved
  refine ⟨branch, (againInputs P config inputs t (w branch) peerUid).commit P now,
    congrArg (fun h => some (P.toHex h)) run.address, again_agrees inputs t now _ peerUid, rfl,
    ⟨headBranch_run named, ?_⟩, moved.2.2.serves, fun unshared => ?_⟩
  · rw [readHead_congr (moved.1 headPath (by decide)), before.refs]
    exact headBranch_run named
  · have target : get P d'.repo.objects ((Object.commit (inputs.commit P t)).hash P) =
        .ok (.commit (inputs.commit P t)) :=
      Has.mono (Has.mono there before.kept) run.widens
    have record := has_of_puts run.objects (CommitInputs.commit_mem_objects _ now)
      (Widens.refl d'.repo.objects) unshared
    exact ⟨record, Diff.diff_agree target record (again_agrees inputs t now _ peerUid)⟩

theorem tooledAgain_unshared {files objects : Files}
    (before : slots Platform.sample files =
      WriteOnce.puts (fun _ => none) ((tooled.objects Platform.sample 0).map (Object.write Platform.sample)))
    (after : slots Platform.sample objects = WriteOnce.puts (slots Platform.sample files)
      ((tooledAgain.objects Platform.sample 0).map (Object.write Platform.sample))) :
    Unshared Platform.sample objects (.commit (tooledAgain.commit Platform.sample 0)) := by
  let all := tooled.objects Platform.sample 0 ++ tooledAgain.objects Platform.sample 0
  have put : slots Platform.sample objects =
      WriteOnce.puts (fun _ => none) (all.map (Object.write Platform.sample)) := by
    rw [after, before, List.map_append]
    exact (List.foldl_append ..).symm
  have apart : ∀ o ∈ all, ∀ o' ∈ all, o.hash Platform.sample = o'.hash Platform.sample →
      (o.write Platform.sample).2 = (o'.write Platform.sample).2 := by decide +kernel
  exact unshared_of_puts put apart (List.mem_append_right _ (CommitInputs.commit_mem_objects tooledAgain 0))

/-- The only commit is rolled back to: the record differs from it in nothing. -/
theorem forward_record_main : ∃ files out d' branch c,
    (execute Platform.sample (fun _ m => m) Daemon.quiet toMain.live none 0 0).run (oneCommit files) =
        (.ok out, d') ∧
      out.newHeadHash = some (Platform.sample.toHex ((Object.commit c).hash Platform.sample)) ∧
      Recorded Platform.sample (Function.update (fun _ => none) "main" (some tooledHash))
        (oneCommit files) d' tooledHash (tooled.commit Platform.sample 0) branch c ∧
      ∃ e, Diff.diff (get Platform.sample d'.repo.objects) tooledHash ((Object.commit c).hash Platform.sample) =
          .ok e ∧
        e.isEmpty = true := by
  obtain ⟨files, held, before⟩ := tooled_held
  obtain ⟨out, objects', agentic, ran, again, after⟩ := oneCommit_rolls_back held
  obtain ⟨objects, staged, _⟩ := stageCommit_puts (FsObjectStore.silent_accepts tooled) 0 (fun _ => none)
  have moved : (Refs.writeBranch Platform.sample "main" tooledHash).run Refs.opened = (.ok (), _) :=
    outcome_of (by decide +kernel)
  have produced : (stageAndCommitWithNow Platform.sample .silent "main" tooled 0).run
      ⟨fun _ => none, Refs.opened⟩ = (.ok { commitHash := tooledHash, branch := "main" }, _) :=
    run_stageAndCommit staged moved
  have refs : (oneCommit files).repo.agentic = tooledRefs := rfl
  have tip : (Refs.readBranch Platform.sample "main").run tooledRefs = (.ok (some tooledHash), tooledRefs) :=
    tooledRefs_refines.readBranch (Function.update_self _ _ _)
  have resolved : ((Refs.resolve Platform.sample toMain.target).run
      (oneCommit files).repo.agentic).1 = .ok (some (CommitOutputs.mk tooledHash "main").commitHash) := by
    rw [refs, show toMain.target = "main" from rfl, Refs.resolve, if_neg (by decide), if_neg (by decide), tip]
  have refines : Refs.Refines Platform.sample _ (oneCommit files).repo.agentic := tooledRefs_refines
  obtain ⟨branch, c, head, recorded⟩ :=
    forward_record (d := oneCommit files) refines produced resolved ran
  dsimp only at recorded
  -- what was recorded is told from its address
  have address : (Object.commit c).hash Platform.sample =
      (Object.commit (tooledAgain.commit Platform.sample 0)).hash Platform.sample :=
    Platform.sample.hex_injective (Platform.toList_ofList_inj (Option.some.inj (head.symm.trans again)))
  obtain rfl : c = tooledAgain.commit Platform.sample 0 :=
    Object.commit.inj (Object.preimage_inj Platform.sample rfl (Platform.sample.of_injective address))
  exact ⟨files, out, _, branch, _, ran, head, recorded, (recorded.unchanged (tooledAgain_unshared before after)).2⟩

end Rollback

end GitAgentic
