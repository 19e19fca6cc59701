import GitAgentic.Daemon.CommitGraph
import GitAgentic.Daemon.Dispatch
import GitAgentic.Daemon.Undisturbed

/-! Runs of commits and rollbacks that may be cut off or fail anywhere: no branch ever
points at a commit that is not wholly there. -/
namespace GitAgentic

namespace Daemon

variable {Hash M : Type}

/-- No blob that the request brings shares its hash with an object of another kind. -/
def Operation.Plain (P : Platform Hash) : Operation Hash → Prop
  | .commit input _ fingerprints _ =>
    (∀ e ∈ input.prompts.entries, GitAgentic.Plain P e.2) ∧
      (∀ bytes, .ok bytes ∈ fingerprints → GitAgentic.Plain P bytes) ∧
      ∀ bytes ∈ modelBytes input.model, GitAgentic.Plain P bytes
  | .rollback .. | .diff => True

variable [DecidableEq Hash] (P : Platform Hash) (hmac : Hmac) (config : DaemonConfig Hash M)

/-- Operations one after another, each stopped after any number of its steps, any of which
may have failed. Between them the backend stores segments, and the working directory and
the backend's state change at will, as they do when the daemon starts anew. -/
inductive Ran (d₀ : Daemon M) : Daemon M → Prop where
  | opened : Ran d₀ d₀
  | operated {d p d'} (o : Operation Hash) : Ran d₀ d → o.Plain P →
      Program.Reaches (o.program P hmac config, d) (p, d') → Ran d₀ d'
  | sealed {d p d'} (b : AdapterProgram Hash M Unit) : Ran d₀ d →
      Program.Reaches (b.toProgram P config.store, d) (p, d') → Ran d₀ d'
  | changed {d} (work : FileTree Bytes) (memory : M) : Ran d₀ d →
      Ran d₀ { d with work, memory }

variable {P hmac config}

theorem Untouched.refl {w : String → Option Hash} {d : Daemon M} (intact : Intact P w d) :
    Untouched P w d d := (Ahead.refl intact.typed).untouched intact

theorem Operation.safe {faults : Prop} {w : String → Option Hash} {d : Daemon M} (intact : Intact P w d)
    (o : Operation Hash) (plain : o.Plain P) :
    (o.program P hmac config).Safe faults (Progress faults P w d)
      (fun r d' => match r with
        | .ok _ => Progress faults P w d d'
        | .error _ => Untouched P w d d') d := by
  cases o with
  | commit input peerUid fingerprints now =>
    refine Program.Safe.bind ((Commit.execute_safe intact input peerUid fingerprints now
      (fun e he => kindOf_plain P (plain.1 e he)) (fun b hb => kindOf_plain P (plain.2.1 b hb))
      (fun b hb => kindOf_plain P (plain.2.2 b hb))).mono (fun _ h => Commit.Made.progress h) ?_)
    rintro (e | out) d' done
    · exact done
    · obtain ⟨branch, inputs, now, landed, _⟩ := done
      exact Or.inr ⟨branch, inputs, now, landed⟩
  | rollback args peerUid nowSeconds now =>
    refine Program.Safe.bind ((Rollback.execute_safe intact args peerUid nowSeconds now).mono
      (fun _ h => Or.inl h) ?_)
    rintro (e | out) d' done
    · exact done
    · by_cases dry : args.dryRun = true
      · rw [Rollback.Done, if_pos dry] at done
        exact Or.inl done.1
      · rw [Rollback.Done, if_neg dry] at done
        obtain ⟨branch, inputs, now, _, _, landed, _⟩ := done
        exact Or.inr ⟨branch, inputs, now, landed⟩
  | diff =>
    refine Program.Safe.mono ((Operation.diff_still P).safe d) ?_ ?_
    · rintro _ rfl
      exact Or.inl (Untouched.refl intact)
    · rintro (e | _) _ rfl
      · exact Untouched.refl intact
      · exact Or.inl (Untouched.refl intact)

theorem intact_of_progress {faults : Prop} {w : String → Option Hash} {d d' : Daemon M}
    (intact : Intact P w d) (h : Progress faults P w d d') : ∃ w', Intact P w' d' := by
  rcases h with untouched | ⟨branch, inputs, now, landed⟩
  · exact ⟨w, intact.untouched untouched⟩
  · exact ⟨_, landed.intact intact⟩

theorem Operation.stopped {w : String → Option Hash} {d d' : Daemon M} (intact : Intact P w d)
    {o : Operation Hash} (plain : o.Plain P) {p : DaemonProgram Hash M Unit}
    (reaches : Program.Reaches (o.program P hmac config, d) (p, d')) :
    (∃ w', Intact P w' d') ∧ ∀ e, p.result? = some (.error e) → Untouched P w d d' := by
  have stopped := (Operation.safe intact o plain).stopped reaches
  cases outcome : p.result? with
  | none =>
    rw [outcome] at stopped
    exact ⟨intact_of_progress intact stopped, nofun⟩
  | some r =>
    rw [outcome] at stopped
    cases r with
    | ok u => exact ⟨intact_of_progress intact stopped, nofun⟩
    | error e => exact ⟨⟨w, intact.untouched stopped⟩, fun _ _ => stopped⟩

/-- A repository without objects and branches. -/
structure Bare (d : Daemon M) : Prop where
  objects : ∀ path, d.repo.objects path = none
  refs : Refs.Fresh d.repo.agentic

theorem Bare.intact {d : Daemon M} (bare : Bare d) : Intact P (fun _ => none) d where
  typed hash compressed slot := by
    rw [show slots P d.repo.objects hash = none from bare.objects _] at slot
    cases slot
  refs := bare.refs.refines
  whole _ _ tip := by cases tip

theorem Ran.intact {d₀ d : Daemon M} (bare : Bare d₀) (ran : Ran P hmac config d₀ d) :
    ∃ w, Intact P w d := by
  induction ran with
  | opened => exact ⟨_, bare.intact⟩
  | operated o _ plain reaches ih =>
    obtain ⟨w, intact⟩ := ih
    exact (Operation.stopped intact plain reaches).1
  | @sealed d p d' b _ reaches ih =>
    obtain ⟨w, intact⟩ := ih
    have stopped := Program.Safe.stopped (Adds.toProgram b intact.typed) reaches
    refine ⟨w, intact.ahead ?_⟩
    cases outcome : p.result? with
    | none =>
      rw [outcome] at stopped
      exact stopped
    | some r =>
      rw [outcome] at stopped
      exact stopped.1
  | changed work memory _ ih =>
    obtain ⟨w, intact⟩ := ih
    exact ⟨w, intact.typed, intact.refs, intact.whole⟩

/-- What the refs of two states have in common: the branches and `HEAD`. -/
def SameRefs (P : Platform Hash) (w : String → Option Hash) (t t' : FileTree TextFile) : Prop :=
  Refs.Serves P w t' ∧ t'.node? headPath = t.node? headPath

omit [DecidableEq Hash] in
theorem sameRefs_of_untouched {w : String → Option Hash} {d d' : Daemon M}
    (h : Untouched P w d d') : SameRefs P w d.repo.agentic d'.repo.agentic :=
  ⟨h.refs.serves, h.confined headPath (by decide)⟩

/-- In every state of every run the branches point at whole commits, and an operation or a
staging that fails from there, wherever it does, changes no branch and not `HEAD`. -/
theorem crash_consistent {d₀ d : Daemon M} (bare : Bare d₀) (ran : Ran P hmac config d₀ d) :
    ∃ w, Refs.Serves P w d.repo.agentic ∧
      (∀ branch h, w branch = some h → Whole P d.repo.objects h) ∧
      (∀ (o : Operation Hash) p d' e, o.Plain P →
        Program.Reaches (o.program P hmac config, d) (p, d') → p.result? = some (.error e) →
        SameRefs P w d.repo.agentic d'.repo.agentic) ∧
      ∀ branch (inputs : CommitInputs Hash) now p r e,
        (∀ bytes ∈ inputs.contents, GitAgentic.Plain P bytes) →
        Program.Reaches (stageAndCommitWithNow P config.store branch inputs now, d.repo) (p, r) →
        p.result? = some (.error e) → SameRefs P w d.repo.agentic r.agentic := by
  obtain ⟨w, intact⟩ := ran.intact bare
  refine ⟨w, intact.refs.serves, intact.whole, ?_, ?_⟩
  · intro o p d' e plain reaches failed
    exact sameRefs_of_untouched ((Operation.stopped intact plain reaches).2 e failed)
  · intro branch inputs now p r e plain reaches failed
    have stopped := (stageAndCommit_safe config.store inputs now intact.typed intact.refs
      (fun b hb => kindOf_plain P (plain b hb))).stopped reaches
    rw [failed] at stopped
    exact ⟨stopped.2.2.serves, stopped.2.1 headPath (by decide)⟩

/-- A daemon without a memory backend, servers or key, whose scanner finds nothing. -/
def quiet : DaemonConfig Bytes Unit where
  store := { scanner := .silent, allowlist := [] }
  memory := none
  mcpServers := []
  approvalKey := none
  exemptEntropyPrefixes := []
  repoRoot := "."
  agenticDir := "./.agentic"

def start : Daemon Unit where
  repo := { objects := fun _ => none, agentic := Refs.opened }
  work := FileTree.empty
  memory := ()
  reversed := []

theorem run_commit_quiet {d : Daemon Unit} {input : CommitInput} {branch : String}
    {head : Option (HeadRef Bytes)} {parent : Option Bytes}
    (named : Commit.branchOf input head = branch) (alone : input.noMemory = true)
    (readHead : (Refs.readHead Platform.sample).run d.repo.agentic = (.ok head, d.repo.agentic))
    (readBranch : (Refs.readBranch Platform.sample branch).run d.repo.agentic = (.ok parent, d.repo.agentic)) :
    let hash := (Object.commit ((Commit.assembleInputs input parent none none BTreeMap.empty none []).commit
      Platform.sample 0)).hash Platform.sample
    ∀ agentic, (Refs.writeBranch Platform.sample branch hash).run d.repo.agentic = (.ok (), agentic) →
      ∃ objects, (Commit.executeWithNow Platform.sample quiet input none [] 0).run d =
        (.ok { commitHash := Platform.sample.toHex hash, branch },
          { d with
            repo :=
              { objects
                agentic := if head.isNone then
                  ((Refs.writeHeadSymbolic branch : Refs.RefsProgram Bytes Unit).run agentic).2 else agentic } }) := by
  intro hash agentic moved
  obtain ⟨objects, staged, _⟩ := stageCommit_puts (FsObjectStore.silent_accepts
    (Commit.assembleInputs input parent none none BTreeMap.empty none [])) 0 d.repo.objects
  subst named
  exact ⟨objects, Commit.run_execute rfl alone readHead readBranch staged moved⟩

def hello : CommitInput where
  message := "hello"
  author := none
  codeSha := none
  branch := none
  prompts := BTreeMap.empty.insert "a.md" (utf8 "hi".toList)
  mcpServers := []
  model := none
  noMemory := true

def helloOperation : Operation Bytes := .commit hello none [] 0

theorem plain_of_not_object {bytes : Bytes}
    (h : ∀ ms, Platform.sample.fromSlice bytes ≠ some (.object ms)) :
    GitAgentic.Plain Platform.sample bytes := by
  have text : ∀ ms, bytes ≠ Platform.sample.toVec (.object ms) := by
    rintro ms rfl
    exact h ms (Platform.sample.fromSlice_toVec _)
  exact ⟨fun t => text _, fun c => text _, fun s => text _, fun m => text _⟩

theorem hello_plain : helloOperation.Plain Platform.sample := by
  refine ⟨?_, nofun, nofun⟩
  intro e he
  rcases BTreeMap.mem_insert he with rfl | he
  · exact plain_of_not_object (fun ms same => by
      have none_ : Platform.sample.fromSlice (utf8 "hi".toList) = none := by decide +kernel
      rw [none_] at same
      cases same)
  · cases he

theorem hello_runs : ((helloOperation.program Platform.sample (fun _ m => m) quiet).run start).1 = .ok () := by
  have head : (Refs.readHead Platform.sample).run start.repo.agentic = (.ok none, start.repo.agentic) :=
    Prod.ext (by decide +kernel) (Refs.readHead_still.run _)
  have absent : (Refs.readBranch Platform.sample "main").run start.repo.agentic = (.ok none, start.repo.agentic) :=
    Prod.ext (by decide +kernel) ((Refs.readBranch_still "main").run _)
  have named : Commit.branchOf hello (none : Option (HeadRef Bytes)) = "main" := rfl
  -- the write does not look at the hash, so the hash is not computed
  have written (hash : Bytes) :
      ((Refs.writeBranch Platform.sample "main" hash).run start.repo.agentic).1 = .ok () := rfl
  obtain ⟨objects, committed⟩ := run_commit_quiet named rfl head absent _ (Prod.ext (written _) rfl)
  exact congrArg Prod.fst (Program.run_bind_of_ok committed)

/-- A commit, and then the same once more, killed after some of its steps. -/
theorem crash_consistent_hello :
    ∃ d, (helloOperation.program Platform.sample (fun _ m => m) quiet).run start = (.ok (), d) ∧
      ∀ n, ∃ d' w, (helloOperation.program Platform.sample (fun _ m => m) quiet).after n d = d' ∧
        Refs.Serves Platform.sample w d'.repo.agentic ∧
        ∀ branch h, w branch = some h → Whole Platform.sample d'.repo.objects h := by
  have done := hello_runs
  -- the state after the first commit is only named: nothing here computes it
  rcases first : (helloOperation.program Platform.sample (fun _ m => m) quiet).run start with ⟨outcome, d⟩
  rw [first] at done
  subst done
  refine ⟨d, rfl, fun n => ?_⟩
  have bare : Bare start := ⟨fun _ => rfl, Refs.opened_fresh⟩
  have ran : Ran Platform.sample (fun _ m => m) quiet start d :=
    Ran.operated helloOperation Ran.opened hello_plain (Program.reaches_of_run first)
  obtain ⟨p, killed⟩ := Program.reaches_after (helloOperation.program Platform.sample (fun _ m => m) quiet) n d
  obtain ⟨w, serves, whole, _⟩ := crash_consistent bare (Ran.operated helloOperation ran hello_plain killed)
  exact ⟨_, w, rfl, serves, whole⟩

end Daemon

end GitAgentic
