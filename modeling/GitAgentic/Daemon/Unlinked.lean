import GitAgentic.Daemon.PromptRestore
import GitAgentic.Data.Unlinked

/-! Where no link lies in the prompts directory, prompts are restored on the disk as they are in
the tree without links: with the same outcome, and the same files are left. -/
namespace GitAgentic

namespace Rollback.OnDisk

open LinkTree

variable {Hash : Type} {repo : TreePath} {repoRoot : String} {t₀ t : LinkTree Bytes} {u : FileTree Bytes}

/-- Nothing in the prompts is a link, and they are the same in both. Outside the disk is as it was. -/
abbrev Same (repo : TreePath) (t₀ : LinkTree Bytes) (u : FileTree Bytes) (t : LinkTree Bytes) : Prop :=
  LinkTree.Mirrors repo "prompts" t₀ u t

/-- Two programs on the working directory that do the same. -/
abbrev Agrees (repo : TreePath) (t₀ : LinkTree Bytes) {α : Type} (p : WorkProgram Hash α)
    (q : DiskProgram Hash α) (u : FileTree Bytes) (t : LinkTree Bytes) : Prop :=
  Program.Alike (Same repo t₀) id p q u t

theorem createParents_agrees {name : String} (same : Same repo t₀ u t) (own : promptsDir <+: entryDir name) :
    Agrees repo t₀ (Rollback.createParents name : WorkProgram Hash Unit) (createParents repo name) u t := by
  have made := same.createDirAll (DaemonError.io : DaemonError Hash) (.inr own)
  unfold Rollback.createParents createParents
  unfold entryDir at made ⊢
  dsimp only
  by_cases nul : (entryPath name).dropLast.any hasNul = true
  · rw [if_pos nul, if_pos nul]
    exact Program.Alike.fail same
  · rw [if_neg nul, if_neg nul]
    exact made

theorem createParents_isDir {name : String} {u : FileTree Bytes}
    (made : ((Rollback.createParents name : WorkProgram Hash Unit).run u).1 = .ok ()) :
    ((Rollback.createParents name : WorkProgram Hash Unit).run u).2.isDir (entryDir name) = true := by
  unfold Rollback.createParents at made ⊢
  dsimp only at made ⊢
  split at made
  · cases made
  · rename_i plain
    rw [if_neg plain]
    exact FileTree.isDir_of_created _ u.isDir_root made

theorem entryPath_eq {name : String} (own : promptsDir <+: entryDir name) :
    entryPath name = entryDir name ++ [entryLast name] := by
  have proper : entryPath name ≠ [] := by
    intro empty
    rw [entryDir, empty] at own
    cases List.prefix_nil.mp own
  rw [entryDir, entryLast, List.getLast?_eq_some_getLast proper, Option.getD_some]
  exact (List.dropLast_append_getLast proper).symm

theorem isSymlink_same {name : String} (same : Same repo t₀ u t) (own : promptsDir <+: entryDir name)
    (there : u.isDir (entryDir name) = true) :
    isSymlink repo name t =
      if hasNul name = true ∨ namesDirectory name = true ∧ (u.file? (entryPath name)).isSome = true then
        .error .other
      else .ok false := by
  have path := entryPath_eq own
  have reached : u.reach [] (entryDir name ++ [entryLast name]) = _ :=
    FileTree.reach_concat (show u.isDir ([] ++ entryDir name) = true from there)
  rw [List.nil_append] at reached
  unfold isSymlink
  by_cases nul : hasNul name = true
  · rw [if_pos nul, if_pos (.inl nul)]
  rw [if_neg nul]
  by_cases directory : namesDirectory name = true
  · rw [if_pos directory, path, same.resolveDir (.inr (own_concat (.inr own))), reached, FileTree.file?]
    cases found : u.node? (entryDir name ++ [entryLast name]) with
    | none => simp [nul, Except.map]
    | some n => cases n <;> simp [nul, directory, Except.map]
  · rw [if_neg directory, same.lstat own there, if_neg (by simp [nul, directory])]
    cases u.node? (entryDir name ++ [entryLast name]) with
    | none => rfl
    | some n => cases n <;> rfl

theorem writeBlobSafely_agrees {name : String} {bytes : Bytes} (same : Same repo t₀ u t)
    (own : promptsDir <+: entryDir name) (there : u.isDir (entryDir name) = true) :
    Agrees repo t₀ (Rollback.writeBlobSafely repoRoot name bytes : WorkProgram Hash Unit)
      (writeBlobSafely repo repoRoot name bytes) u t := by
  have path := entryPath_eq own
  have checked : Program.Alike (Same repo t₀) (fun _ : Unit => false)
      (Program.read (fun u => if hasNul name ∨ (namesDirectory name ∧ (u.file? (entryPath name)).isSome) then
        .error (.context ("checking for symlink at " ++ shown repoRoot name ++ " before prompt write") .io)
        else .ok ()) (.context ("checking for symlink at " ++ shown repoRoot name ++ " before prompt write") .io) :
        WorkProgram Hash Unit)
      (onDisk (.context ("checking for symlink at " ++ shown repoRoot name ++ " before prompt write") .io)
        (Program.read (isSymlink repo name) .other)) u t := by
    unfold Program.Alike onDisk
    rw [Program.run_mapError, Program.run_read, Program.run_read, isSymlink_same same own there]
    refine ⟨?_, same⟩
    dsimp only
    split <;> rfl
  refine checked.bind (fun _ u₁ t₁ ran same₁ => ?_) (fun _ _ h => h)
  obtain rfl : u = u₁ := congrArg Prod.snd ran
  have written : Agrees repo t₀ (FileTree.perform (.context ("writing temp file " ++
      shown repoRoot (shownTmp name)) .io) (fun u => u.write (withTmp (entryPath name)) bytes))
      (onDisk (.context ("writing temp file " ++ shown repoRoot (shownTmp name)) .io : DaemonError Hash)
        (LinkTree.call (fun t => t.writeFile repo (entryDir name) (tmpName (entryLast name)) bytes))) u t₁ :=
    perform_alike same₁ (same₁.writeFile own there)
  refine written.bind (fun _ u₂ t₂ wrote same₂ => ?_) (fun _ _ h => h)
  refine perform_alike same₂ ?_
  by_cases directory : namesDirectory name = true
  · rw [if_pos directory, if_pos directory]
    exact .none
  · have moved : Option.Rel (Same repo t₀)
        (u₂.rename (withTmp (entryPath name)) (entryDir name ++ [entryLast name])) _ := same₂.renameIn own
    rw [← path] at moved
    rw [if_neg directory, if_neg directory]
    exact moved

/- The sweep. -/

def Fewer (u u' : FileTree Bytes) : Prop := ∀ q, (u'.node? q).isSome = true → (u.node? q).isSome = true

theorem Fewer.at {u u' : FileTree Bytes} {p : TreePath}
    (gone : ∀ q, u'.node? q = if q = p then none else u.node? q) : Fewer u u' := by
  intro q there
  rw [gone q] at there
  split at there
  · cases there
  · exact there

/-- Alike, and things are only taken away. -/
abbrev Clears (repo : TreePath) (t₀ : LinkTree Bytes) {α β : Type} (see : α → β) (p : WorkProgram Hash α)
    (q : DiskProgram Hash β) (u : FileTree Bytes) (t : LinkTree Bytes) : Prop :=
  Program.Alike (fun u' t' => Same repo t₀ u' t' ∧ Fewer u u') see p q u t

theorem Clears.bind {α β α' β' : Type} {see : α → β} {see' : α' → β'} {p : WorkProgram Hash α}
    {q : DiskProgram Hash β} {k : α → WorkProgram Hash α'} {l : β → DiskProgram Hash β'}
    (first : Clears repo t₀ see p q u t)
    (rest : ∀ a u' t', p.run u = (.ok a, u') → Same repo t₀ u' t' → Clears repo t₀ see' (k a) (l (see a)) u' t') :
    Clears repo t₀ see' (p.bind k) (q.bind l) u t := by
  refine Program.Alike.bind first (fun a u' t' ran held => ?_) (fun _ _ h => h)
  exact (rest a u' t' ran held.1).mono (fun _ _ more => ⟨more.1, fun q there => held.2 q (more.2 q there)⟩)

def listed (entries : List (String × TreeNode Bytes)) : List (String × TreeNode (Linked Bytes)) :=
  entries.map (fun e => (e.1, e.2.regular))

theorem readDir_clears {here : List String} (same : Same repo t₀ u t) (own : promptsDir <+: here) :
    Clears repo t₀ listed (Rollback.readDir here : WorkProgram Hash _) (readDir repo here) u t := by
  have answer := same.list_ok own
  unfold Clears Program.Alike Rollback.readDir readDir onDisk
  rw [Program.run_mapError, Program.run_read, Program.run_read]
  refine ⟨?_, same, fun _ there => there⟩
  dsimp only
  by_cases dir : u.isDir here = true
  · rw [if_pos dir] at answer ⊢
    cases found : LinkTree.list t repo here with
    | ok entries =>
      rw [found] at answer
      cases answer
      rfl
    | error fault =>
      rw [found] at answer
      cases answer
  · rw [if_neg dir] at answer ⊢
    cases found : LinkTree.list t repo here with
    | ok entries =>
      rw [found] at answer
      cases answer
    | error fault => rfl

theorem removed_rel {o : Option (FileTree Bytes)} {o' : Option (LinkTree Bytes)}
    (both : Option.Rel (Same repo t₀) o o') (removed : ∀ u', o = some u' → Fewer u u') :
    Option.Rel (fun u' t' => Same repo t₀ u' t' ∧ Fewer u u') o o' := by
  cases both with
  | none => exact .none
  | some same => exact .some ⟨same, removed _ rfl⟩

theorem removeIfEmpty_clears {here : List String} {name : String} (same : Same repo t₀ u t)
    (own : promptsDir <+: here) :
    Clears repo t₀ id (Rollback.removeIfEmpty promptsDir (here ++ [name]) : WorkProgram Hash Unit)
      (removeIfEmpty repo here name) u t := by
  unfold Rollback.removeIfEmpty removeIfEmpty
  by_cases root : here ++ [name] = promptsDir
  · rw [if_pos root, if_pos root]
    exact Program.Alike.value ⟨same, fun _ there => there⟩
  rw [if_neg root, if_neg root]
  refine Clears.bind (readDir_clears same (own.trans (List.prefix_append _ _))) (fun left u t _ same => ?_)
  by_cases empty : left = []
  · rw [if_pos empty, if_pos (by rw [empty]; rfl)]
    have both : Option.Rel (Same repo t₀) (u.removeDir (here ++ [name])) (t.rmdir repo here name).toOption :=
      same.rmdir own
    have gone := removed_rel both (fun u' gone => Fewer.at (FileTree.removeDir_node? gone).2.2)
    have tried : Clears repo t₀ id
        (FileTree.perform (.io : DaemonError Hash) (fun u => u.removeDir (here ++ [name])))
        (onDisk .io (LinkTree.call (fun t => t.rmdir repo here name))) u t :=
      perform_alike ⟨same, fun _ there => there⟩ gone
    rw [Clears, Program.Alike, onDisk, Program.run_mapError] at tried
    exact Program.Alike.attempt tried.2 ()
  · rw [if_neg empty, if_neg (by simpa [listed] using empty)]
    exact Program.Alike.value ⟨same, fun _ there => there⟩

theorem removeOrphan_clears {wanted : List TreePath} {here : List String} {name : String}
    (same : Same repo t₀ u t) (own : promptsDir <+: here) :
    Clears repo t₀ id (Rollback.removeOrphan repoRoot wanted (here ++ [name]) : WorkProgram Hash Unit)
      (removeOrphan repo repoRoot wanted here name) u t := by
  unfold Rollback.removeOrphan removeOrphan
  by_cases kept : here ++ [name] ∈ wanted
  · rw [if_pos kept, if_pos kept]
    exact Program.Alike.value ⟨same, fun _ there => there⟩
  · rw [if_neg kept, if_neg kept]
    refine perform_alike ⟨same, fun _ there => there⟩ (removed_rel (same.unlink own) (fun u' gone => ?_))
    exact Fewer.at (FileTree.removeFile_node? gone).2

theorem shallow_entry {here : TreePath} {name : String} {node : TreeNode Bytes} {n : ℕ} (shallow : Shallow u here n)
    (found : u.node? (here ++ [name]) = some node) : ∃ m, n = m + 1 ∧ Shallow u (here ++ [name]) m := by
  have long := shallow (here ++ [name]) (List.prefix_append _ _) (by rw [found]; rfl)
  rw [List.length_append, List.length_singleton] at long
  obtain ⟨m, rfl⟩ : ∃ m, n = m + 1 := ⟨n - 1, by omega⟩
  refine ⟨m, rfl, fun q below there => ?_⟩
  have short := shallow q ((List.prefix_append _ _).trans below) there
  rw [List.length_append, List.length_singleton]
  omega

theorem shallow_fewer {u' : FileTree Bytes} {here : TreePath} {n : ℕ} (shallow : Shallow u here n)
    (fewer : Fewer u u') : Shallow u' here n := fun q below there => shallow q below (fewer q there)

theorem readDir_ok {u u' : FileTree Bytes} {here : TreePath} {entries : List (String × TreeNode Bytes)}
    (ran : (Rollback.readDir here : WorkProgram Hash _).run u = (.ok entries, u')) :
    u' = u ∧ entries = u.readDir here := by
  rw [Rollback.readDir, Program.run_read] at ran
  split at ran
  · cases ran
    exact ⟨rfl, rfl⟩
  · cases ran

theorem sweepOrphans_clears {wanted : List TreePath} {n n' : ℕ} {here : List String} (same : Same repo t₀ u t)
    (own : promptsDir <+: here) (shallow : Shallow u here n) (shallow' : Shallow u here n') :
    Clears repo t₀ id (Rollback.sweepOrphans repoRoot promptsDir wanted (n + 1) here : WorkProgram Hash Unit)
      (sweepOrphans repo repoRoot wanted (n' + 1) here) u t := by
  induction n using Nat.strong_induction_on generalizing n' here u t with
  | _ n ih =>
    rw [Rollback.sweepOrphans, sweepOrphans]
    refine Clears.bind (readDir_clears same own) (fun entries u₁ t₁ ran same₁ => ?_)
    obtain ⟨rfl, rfl⟩ := readDir_ok ran
    refine Program.Alike.forEach _ (fun e mem u₂ t₂ held => ?_) ⟨same₁, fun _ there => there⟩
    obtain ⟨name, node⟩ := e
    have deeper : promptsDir <+: here ++ [name] := own.trans (List.prefix_append _ _)
    have on : ∀ {p : WorkProgram Hash Unit} {q : DiskProgram Hash Unit}, Clears repo t₀ id p q u₂ t₂ →
        Program.Alike (fun u' t' => Same repo t₀ u' t' ∧ Fewer u₁ u') id p q u₂ t₂ := fun clears =>
      clears.mono (fun _ _ more => ⟨more.1, fun q there => held.2 q (more.2 q there)⟩)
    cases node with
    | file c => exact on (removeOrphan_clears held.1 own)
    | dir =>
      have found := FileTree.mem_readDir.mp mem
      obtain ⟨m, rfl, short⟩ := shallow_entry shallow found
      obtain ⟨m', rfl, short'⟩ := shallow_entry shallow' found
      have below := ih m (Nat.lt_succ_self m) held.1 deeper (shallow_fewer short held.2)
        (shallow_fewer short' held.2)
      exact on (below.bind (fun _ u₃ t₃ _ same₃ => removeIfEmpty_clears same₃ own))

theorem sweep_agrees {wanted : List TreePath} (same : Same repo t₀ u t) :
    Agrees repo t₀ (Rollback.sweep repoRoot wanted : WorkProgram Hash Unit) (sweep repo repoRoot wanted) u t := by
  have shallow : Shallow u promptsDir u.depth := fun q _ there =>
    (FileTree.length_le_depth there).trans (Nat.le_add_left _ _)
  have shallow' : Shallow u promptsDir t.depth := by
    intro q below there
    have on : (t.node? (repo ++ q)).isSome = true := by
      rw [same.node below, Option.isSome_map]
      exact there
    have long := FileTree.length_le_depth on
    rw [List.length_append] at long
    omega
  unfold Agrees Program.Alike Rollback.sweep sweep
  exact (sweepOrphans_clears same (List.prefix_refl _) shallow shallow').mono (fun _ _ h => h.1)

/- The daemon and the disk. -/

variable {M : Type} [DecidableEq Hash] {P : Platform Hash} {objects : LinkTree Bytes → Files} {d : Daemon M}

/-- The working directory of the daemon is on the disk, and so are the objects, which lie elsewhere. -/
structure Mirrored (repo : TreePath) (objects : LinkTree Bytes → Files) (t₀ : LinkTree Bytes) (d : Daemon M)
    (t : LinkTree Bytes) : Prop where
  work : Same repo t₀ d.work t
  objects : objects t = d.repo.objects

section

variable (unseen : ∀ t, Within (promptsRoot repo) t₀ t → objects t = objects t₀)

include unseen

omit [DecidableEq Hash] in
theorem onWork_agrees {p : WorkProgram Hash Unit} {q : DiskProgram Hash Unit} (held : Mirrored repo objects t₀ d t)
    (agrees : Agrees repo t₀ p q d.work t) : Program.Alike (Mirrored repo objects t₀) id (onWork p) q d t := by
  have focused : Program.Alike (fun d' t' => Same repo t₀ d'.work t' ∧ d' = { d with work := d'.work }) id
      (onWork p) q d t := Program.Alike.focus (fun _ _ => rfl) (fun _ _ _ => rfl) (fun _ => rfl) agrees
  refine focused.mono ?_
  rintro d' t' ⟨same, rest⟩
  refine ⟨same, ?_⟩
  rw [unseen t' same.within, ← unseen t held.work.within, held.objects, rest]

end

theorem loadBlob_agrees {hash : Hash} (held : Mirrored repo objects t₀ d t) :
    Program.Alike (Mirrored repo objects t₀) id (Rollback.loadBlob P hash : DaemonProgram Hash M Blob)
      (loadBlob P objects hash) d t := by
  have ran : (Rollback.loadBlob P hash : DaemonProgram Hash M Blob).run d = _ := Program.run_bind _ _ d
  rw [run_readObjects] at ran
  rw [Program.Alike, ran, loadBlob, Program.run_read, held.objects]
  cases get P d.repo.objects hash with
  | error e => exact ⟨rfl, held⟩
  | ok object =>
    cases object
    case blob blob => exact ⟨rfl, held⟩
    all_goals exact ⟨rfl, held⟩

theorem loadTree_agrees {hash : Hash} (held : Mirrored repo objects t₀ d t) :
    Program.Alike (Mirrored repo objects t₀) id (Rollback.loadTree P hash : DaemonProgram Hash M (Tree Hash))
      (loadTree P objects hash) d t := by
  have ran : (Rollback.loadTree P hash : DaemonProgram Hash M (Tree Hash)).run d = _ := Program.run_bind _ _ d
  rw [run_readObjects] at ran
  rw [Program.Alike, ran, loadTree, Program.run_read, held.objects]
  cases get P d.repo.objects hash with
  | error e => exact ⟨rfl, held⟩
  | ok object =>
    cases object
    case tree tree => exact ⟨rfl, held⟩
    all_goals exact ⟨rfl, held⟩

section

variable (unseen : ∀ t, Within (promptsRoot repo) t₀ t → objects t = objects t₀)

include unseen

theorem restoreEntry_agrees {name : String} {r : TypedRef Hash} (held : Mirrored repo objects t₀ d t) :
    Program.Alike (Mirrored repo objects t₀) id
      (Rollback.restoreEntry repoRoot P name r : DaemonProgram Hash M Unit)
      (restoreEntry P repo repoRoot objects name r) d t := by
  unfold Rollback.restoreEntry restoreEntry
  cases valid : (validateTreeEntryName name : Except (DaemonError Hash) Unit) with
  | error e => exact Program.Alike.fail held
  | ok _ =>
    have own := below_of_valid valid
    refine (onWork_agrees unseen held (createParents_agrees held.work own)).bind
      (fun _ d₁ t₁ made held₁ => ?_) (fun _ _ h => h)
    rw [run_onWork] at made
    have there : d₁.work.isDir (entryDir name) = true := by
      obtain rfl := congrArg Prod.snd made
      exact createParents_isDir (congrArg Prod.fst made)
    refine (loadBlob_agrees held₁).bind (fun blob d₂ t₂ loaded held₂ => ?_) (fun _ _ h => h)
    have still : d₂ = d₁ := by
      rw [← (loadBlob_still (P := P) r.hash).run d₁, loaded]
    exact onWork_agrees unseen held₂ (writeBlobSafely_agrees held₂.work own (still ▸ there))

theorem restorePrompts_agrees {promptsHash : Hash} (held : Mirrored repo objects t₀ d t) :
    Program.Alike (Mirrored repo objects t₀) id
      (Rollback.restorePrompts repoRoot P promptsHash : DaemonProgram Hash M Unit)
      (restorePrompts P repo repoRoot objects promptsHash) d t := by
  unfold Rollback.restorePrompts restorePrompts
  refine (onWork_agrees unseen held (held.work.createDirAll .io (.inr (List.prefix_refl _)))).bind
    (fun _ d₁ t₁ _ held₁ => ?_) (fun _ _ h => h)
  refine (loadTree_agrees held₁).bind (fun tree d₂ t₂ _ held₂ => ?_) (fun _ _ h => h)
  have each : Program.Alike (Mirrored repo objects t₀) id
      (Program.forEach (fun e => Rollback.restoreEntry repoRoot P e.1 e.2) tree.entries.entries :
        DaemonProgram Hash M Unit)
      (Program.forEach (fun e => restoreEntry P repo repoRoot objects e.1 e.2) (tree.entries.entries.map id)) d₂ t₂ :=
    Program.Alike.forEach _ (fun e _ _ _ held => restoreEntry_agrees unseen held) held₂
  rw [List.map_id] at each
  exact each.bind (fun _ d₃ t₃ _ held₃ => onWork_agrees unseen held₃ (sweep_agrees held₃.work))
    (fun _ _ h => h)

end

theorem restorePrompts_unlinked (base : t.isDir repo = true)
    (unlinked : ∀ q, promptsDir <+: q → t.NoLink (repo ++ q))
    (unseen : ∀ t', Within (promptsRoot repo) t t' → objects t' = objects t) (stored : objects t = d.repo.objects)
    (promptsHash : Hash) :
    Program.Alike (Mirrored repo objects t) id
      (Rollback.restorePrompts repoRoot P promptsHash : DaemonProgram Hash M Unit)
      (restorePrompts P repo repoRoot objects promptsHash) { d with work := plainTree repo "prompts" t } t :=
  restorePrompts_agrees unseen ⟨mirrors_plainTree base unlinked, stored⟩

end Rollback.OnDisk

end GitAgentic
