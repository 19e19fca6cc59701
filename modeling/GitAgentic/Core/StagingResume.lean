import GitAgentic.Core.StagingRun
import GitAgentic.Data.Resume

/-! Staging that is stopped anywhere and called again. Each object is guarded by the check of
its address, and the branch ref is written the same way again, so that the second call leaves
what one uninterrupted call leaves. -/
namespace GitAgentic

variable {Hash : Type} (P : Platform Hash)

def KeepsTaken (files files' : Files) : Prop :=
  ∀ hash, (slots P files hash).isSome = true → (slots P files' hash).isSome = true

variable {P}

theorem KeepsTaken.refl (files : Files) : KeepsTaken P files files := fun _ h => h

theorem KeepsTaken.trans {files files' files'' : Files} (first : KeepsTaken P files files')
    (second : KeepsTaken P files' files'') : KeepsTaken P files files'' :=
  fun hash h => second hash (first hash h)

theorem keepsTaken_writeAt (files : Files) (hash : Hash) (bytes : Bytes) :
    KeepsTaken P files (writeAt P files (pathFor P hash) bytes) := by
  classical
  intro other taken
  rw [slots_writeAt]
  by_cases here : other = hash
  · subst here
    rw [Function.update_self]
    rfl
  · rw [Function.update_of_ne here]
    exact taken

theorem taken_writeAt (files : Files) (hash : Hash) (bytes : Bytes) :
    (writeAt P files (pathFor P hash) bytes (pathFor P hash)).isSome = true := by
  simp [writeAt]

theorem after_writeAtProgram (path : ObjectPath) (bytes : Bytes) (n : Nat) (files : Files) :
    (writeAtProgram P path bytes : Program Files (Error Hash) Unit).after n files = files ∨
      (writeAtProgram P path bytes : Program Files (Error Hash) Unit).after n files =
        Function.update files (path.withExtension "tmp") (some (P.encodeAll bytes)) ∨
      (writeAtProgram P path bytes : Program Files (Error Hash) Unit).after n files =
        writeAt P files path bytes := by
  match n with
  | 0 => exact Or.inl rfl
  | 1 => exact Or.inl rfl
  | 2 => exact Or.inr (Or.inl rfl)
  | n + 3 =>
    have three : (writeAtProgram P path bytes : Program Files (Error Hash) Unit).ops files = 3 := rfl
    rw [Program.after_of_ops_le _ (three.le.trans (Nat.le_add_left 3 n)), run_writeAtProgram]
    exact Or.inr (Or.inr rfl)

theorem writeAt_of_tmp (files : Files) (path : ObjectPath) (bytes : Bytes) (content : Option Bytes) :
    writeAt P (Function.update files (path.withExtension "tmp") content) path bytes =
      writeAt P files path bytes := by
  simp only [writeAt, Function.update_idem, Function.update_self]

theorem after_storeProgram (hash : Hash) (bytes : Bytes) (n : Nat) (files : Files) :
    (storeProgram P hash bytes).after n files = files ∨
      (slots P files hash = none ∧ (storeProgram P hash bytes).after n files =
        Function.update files ((pathFor P hash).withExtension "tmp") (some (P.encodeAll bytes))) ∨
      (storeProgram P hash bytes).after n files = ((storeProgram P hash bytes).run files).2 := by
  cases n with
  | zero => exact Or.inl rfl
  | succ n =>
    cases slot : slots P files hash with
    | some compressed =>
      refine Or.inl ?_
      have taken : (files (pathFor P hash)).isSome = true := Option.isSome_of_eq_some slot
      simp only [storeProgram, Program.after, taken, if_true, id]
    | none =>
      have free : (files (pathFor P hash)).isSome = false := by
        rw [show files (pathFor P hash) = none from slot]
        rfl
      have stops : (storeProgram P hash bytes).after (n + 1) files =
          (writeAtProgram P (pathFor P hash) bytes : Program Files (Error Hash) Unit).after n files := by
        simp only [storeProgram, Program.after, free, Bool.false_eq_true, if_false, id]
      rw [stops, run_storeProgram, free]
      rcases after_writeAtProgram (pathFor P hash) bytes n files with same | tmp | whole
      · exact Or.inl same
      · exact Or.inr (Or.inl ⟨rfl, tmp⟩)
      · exact Or.inr (Or.inr whole)

theorem taken_of_store (hash : Hash) (bytes : Bytes) (files : Files) :
    (slots P ((storeProgram P hash bytes).run files).2 hash).isSome = true := by
  rw [run_storeProgram]
  split
  · rename_i taken
    exact taken
  · exact taken_writeAt files hash bytes

theorem store_settling (hash : Hash) (bytes : Bytes) :
    (storeProgram P hash bytes).Settling (KeepsTaken P) where
  resumes n files := by
    rcases after_storeProgram hash bytes n files with same | ⟨free, tmp⟩ | ended
    · rw [same]
    · have still : slots P ((storeProgram P hash bytes).after n files) hash = none := by
        rw [tmp, slots_tmp]
        exact free
      rw [run_store_free still, run_store_free free, tmp, writeAt_of_tmp]
    · have taken := taken_of_store (P := P) hash bytes files
      rw [ended, run_store_taken taken, run_storeProgram]
  moves n files := by
    rcases after_storeProgram hash bytes n files with same | ⟨free, tmp⟩ | ended
    · rw [same]
      exact KeepsTaken.refl files
    · rw [tmp, KeepsTaken, slots_tmp]
      exact fun _ taken => taken
    · rw [ended, run_storeProgram]
      split
      · exact KeepsTaken.refl files
      · exact keepsTaken_writeAt files hash bytes
  settles files _ files' ran u further := by
    have taken := taken_of_store (P := P) hash bytes files
    rw [ran] at taken
    rw [run_store_taken (further hash taken)]

section

variable [DecidableEq Hash] {S : FsObjectStore Hash}

theorem scanned_settling (hits : List Hit) (hash : Hash) (bytes : Bytes) :
    (if hits ≠ [] ∧ hash ∉ S.allowlist then Program.fail (.secretDetected hits)
      else do
        storeProgram P hash bytes
        return hash : Program Files (Error Hash) Hash).Settling (KeepsTaken P) := by
  split
  · exact .done KeepsTaken.refl _
  · exact (store_settling _ _).bind KeepsTaken.trans (fun _ => .done KeepsTaken.refl _)

theorem put_settling (o : Object Hash) (policy : ScanPolicy) :
    (S.putProgram P o policy).Settling (KeepsTaken P) := scanned_settling _ _ _

theorem stageEntries_settling (exemptPrefixes : List String) (entries : List (String × Bytes))
    (tree : Tree Hash) :
    (stageEntries P S exemptPrefixes entries tree).Settling (KeepsTaken P) := by
  induction entries generalizing tree with
  | nil => exact .done KeepsTaken.refl _
  | cons e rest ih => exact (put_settling _ _).bind KeepsTaken.trans (fun _ => ih _)

theorem stageBlobTree_settling (entries : BTreeMap String Bytes) (exemptPrefixes : List String) :
    (stageBlobTree P S entries exemptPrefixes).Settling (KeepsTaken P) := by
  unfold stageBlobTree
  split
  · exact .done KeepsTaken.refl _
  · refine (stageEntries_settling _ _ _).bind KeepsTaken.trans (fun _ => ?_)
    exact (put_settling _ _).bind KeepsTaken.trans (fun _ => .done KeepsTaken.refl _)

theorem stageOptionalBlob_settling (payload : Option Bytes) :
    (stageOptionalBlob P S payload).Settling (KeepsTaken P) := by
  cases payload with
  | none => exact .done KeepsTaken.refl _
  | some bytes => exact (put_settling _ _).bind KeepsTaken.trans (fun _ => .done KeepsTaken.refl _)

theorem stageCommit_settling (inputs : CommitInputs Hash) (now : Int) :
    (stageCommit P S inputs now).Settling (KeepsTaken P) := by
  refine (stageBlobTree_settling _ _).bind KeepsTaken.trans (fun prompts => ?_)
  refine (stageBlobTree_settling _ _).bind KeepsTaken.trans (fun tools => ?_)
  refine (stageOptionalBlob_settling _).bind KeepsTaken.trans (fun model => ?_)
  refine (stageOptionalBlob_settling _).bind KeepsTaken.trans (fun intent => ?_)
  refine (stageOptionalBlob_settling _).bind KeepsTaken.trans (fun plan => ?_)
  refine (stageOptionalBlob_settling _).bind KeepsTaken.trans (fun transcript => ?_)
  refine (stageOptionalBlob_settling _).bind KeepsTaken.trans (fun evals => ?_)
  exact put_settling _ _

end

namespace Refs

theorem writeAtomic_resumes {path : TreePath} (apart : withTmp path ≠ path) (contents : String) :
    (writeAtomic path contents : RefsProgram Hash Unit).Resumable :=
  (FileTree.createDirAll_settling _ _ _).then (fun _ => FileTree.replace_advances _ _ _ _)
    (fun _ => FileTree.replace_resumes _ apart _)

theorem writeAtomic_advances (path : TreePath) (contents : String) :
    (writeAtomic path contents : RefsProgram Hash Unit).Advances FileTree.KeepsDirs :=
  (FileTree.createDirAll_settling _ _ _).moves.bind FileTree.KeepsDirs.trans
    (fun _ => FileTree.replace_advances _ _ _ _)

theorem writeBranch_resumes (branch : String) (hash : Hash) :
    (writeBranch P branch hash).Resumable := by
  cases valid : branchRejection branch with
  | some reason =>
    rw [writeBranch, branchPath_rejected valid]
    exact fun _ _ => rfl
  | none =>
    have apart : withTmp (heads ++ splitSlash branch) ≠ heads ++ splitSlash branch := by
      obtain ⟨dir, last, tail, tmp⟩ := withTmp_tmp (heads ++ splitSlash branch)
      rw [tail]
      exact Ne.symm (branch_ne_tmp valid tmp)
    rw [writeBranch, branchPath_valid valid]
    exact (FileTree.createDirAll_settling _ _ _).then (fun _ => writeAtomic_advances _ _)
      (fun _ => writeAtomic_resumes apart _)

end Refs

theorem onObjects_settling {ε α : Type} {R : Files → Files → Prop} {p : Program Files ε α}
    (h : p.Settling R) :
    (Repository.onObjects p).Settling (fun r r' => R r.objects r'.objects) := by
  unfold Repository.onObjects
  refine h.focus ?_ ?_ ?_
  all_goals intros; rfl

theorem onRefs_resumes {ε α : Type} {p : Program (FileTree TextFile) ε α} (h : p.Resumable) :
    (Repository.onRefs p).Resumable := by
  unfold Repository.onRefs
  refine h.focus ?_ ?_ ?_
  all_goals intros; rfl

theorem onRefs_objects {ε α : Type} (p : Program (FileTree TextFile) ε α) (n : Nat) (r : Repository) :
    ((Repository.onRefs p).after n r).objects = r.objects := by
  rw [Repository.onRefs, Program.after_focus]
  all_goals intros; rfl

variable [DecidableEq Hash] {S : FsObjectStore Hash}

theorem stageAndCommit_resumes (branch : String) (inputs : CommitInputs Hash) (now : Int) :
    (stageAndCommitWithNow P S branch inputs now).Resumable := by
  refine (onObjects_settling (stageCommit_settling inputs now)).then (fun hash n r => ?_)
    (fun hash => ?_)
  · have same : (((Repository.onRefs (Refs.writeBranch P branch hash)).bind
        (fun _ => .done (.ok (⟨hash, branch⟩ : CommitOutputs Hash)))).after n r).objects = r.objects := by
      rw [Program.after_map, onRefs_objects]
    intro other taken
    exact (congrArg (fun objects => (slots P objects other).isSome) same).trans taken
  · exact (onRefs_resumes (Refs.writeBranch_resumes branch hash)).map _

variable (P S) in
/-- Calls that are cut off anywhere, then calls that are not: each of these returns what one
uninterrupted call returns, and leaves the same object files and the same refs. -/
theorem stageAndCommit_idempotent (branch : String) (inputs : CommitInputs Hash) (now : Int)
    (r : Repository) (stops : List Nat) (again : Nat) :
    let call := stageAndCommitWithNow P S branch inputs now
    let stopped := stops.foldl (fun r n => call.after n r) r
    call.run ((fun r => (call.run r).2)^[again] stopped) = call.run r :=
  (stageAndCommit_resumes branch inputs now).again stops again r

end GitAgentic
