import GitAgentic.Daemon.PromptRestore

/-! The prompts as the command line reads them from a directory, and what it reads again after the
commit with them has been rolled back to. -/
namespace GitAgentic

/-- A name that a directory can list. -/
structure FileName (part : String) : Prop where
  named : part ≠ ""
  notHere : part ≠ "."
  notUp : part ≠ ".."
  whole : '/' ∉ part.toList

theorem joinSlash_inj {a b : List String} (proper : a ≠ []) (proper' : b ≠ []) (names : ∀ part ∈ a, FileName part)
    (names' : ∀ part ∈ b, FileName part) (same : joinSlash a = joinSlash b) : a = b := by
  rw [← splitSlash_joinSlash proper (fun part mem => (names part mem).whole), same,
    splitSlash_joinSlash proper' (fun part mem => (names' part mem).whole)]

theorem Rollback.entryPath_joinSlash {parts : List String} (proper : parts ≠ [])
    (names : ∀ part ∈ parts, FileName part) : entryPath (joinSlash parts) = promptsDir ++ parts := by
  have split := splitSlash_joinSlash proper (fun part mem => (names part mem).whole)
  have normal : ∀ part ∈ parts, Component.ofPart part = some (.normal part) := by
    intro part mem
    have name := names part mem
    rw [Component.ofPart, if_neg (by simp [name.named, name.notHere]), if_neg name.notUp]
  have components : pathComponents (joinSlash parts) = parts.map Component.normal := by
    unfold pathComponents
    rw [split]
    cases parts with
    | nil => exact absurd rfl proper
    | cons first rest =>
      have name := names first List.mem_cons_self
      have others : rest.filterMap Component.ofPart = rest.map Component.normal := by
        rw [List.filterMap_congr (fun part mem => normal part (List.mem_cons_of_mem first mem))]
        exact congrFun List.filterMap_eq_map rest
      simp only [if_neg name.named, if_neg name.notHere, normal first List.mem_cons_self, others]
      rfl
  rw [entryPath, components, List.filterMap_map]
  congr 1
  exact List.filterMap_some

namespace Client

/-- `walk`: directories are entered where they are listed, and a file is found under its path
below the root. -/
def walk (t : FileTree Bytes) (root : TreePath) : ℕ → TreePath → BTreeMap String Bytes → BTreeMap String Bytes
  | 0, _, out => out
  | n + 1, here, out =>
    (t.readDir here).foldl (fun out e =>
      match e.2 with
      | .dir => walk t root n (here ++ [e.1]) out
      | .file body => out.insert (joinSlash ((here ++ [e.1]).drop root.length)) body) out

/-- `read_prompt_dir`. No directory lies deeper than the tree. -/
def readPromptDir (repoRoot : String) (t : FileTree Bytes) (dir : TreePath) : Except String (BTreeMap String Bytes) :=
  match t.node? dir with
  | none => .ok BTreeMap.empty
  | some (.file _) => .error ("reading " ++ repoRoot ++ "/" ++ joinSlash dir)
  | some .dir => .ok (walk t dir (t.depth + 1) dir BTreeMap.empty)

/-- What is found at a path. -/
def found (t : FileTree Bytes) (root q : TreePath) : Option (String × Bytes) :=
  (t.file? q).map (fun body => (joinSlash (q.drop root.length), body))

theorem walk_eq (t : FileTree Bytes) (root : TreePath) (n : ℕ) (here : TreePath) (out : BTreeMap String Bytes) :
    walk t root n here out =
      ((t.walk (fun _ => true) n here).filterMap (found t root)).foldl (fun out e => out.insert e.1 e.2) out := by
  induction n generalizing here out with
  | zero => rfl
  | succ n ih =>
    rw [walk, FileTree.walk, List.filterMap_flatMap, List.foldl_flatMap]
    refine List.foldl_ext _ _ _ (fun out e listed => ?_)
    obtain ⟨name, node⟩ := e
    have there := FileTree.mem_readDir.mp listed
    cases node with
    | dir => exact ih _ _
    | file body =>
      have held : t.file? (here ++ [name]) = some body := FileTree.file?_eq_some_iff.mpr there
      simp [found, held]

def listing (t : FileTree Bytes) (dir : TreePath) : List (String × Bytes) :=
  (t.walk (fun _ => true) (t.depth + 1) dir).filterMap (found t dir)

theorem readPromptDir_dir {repoRoot : String} {t : FileTree Bytes} {dir : TreePath} (there : t.isDir dir = true) :
    readPromptDir repoRoot t dir = .ok (BTreeMap.ofList (listing t dir)) := by
  rw [readPromptDir, FileTree.isDir_iff.mp there]
  exact congrArg Except.ok (walk_eq t dir _ dir _)

theorem mem_listing {t : FileTree Bytes} {dir : TreePath} {name : String} {body : Bytes} :
    (name, body) ∈ listing t dir ↔
      ∃ parts, parts ≠ [] ∧ name = joinSlash parts ∧ t.file? (dir ++ parts) = some body := by
  rw [listing, List.mem_filterMap]
  constructor
  · rintro ⟨q, walked, at_⟩
    obtain ⟨_, names, last, rfl, _⟩ := FileTree.mem_walk.mp walked
    obtain ⟨body', held, same⟩ := Option.map_eq_some_iff.mp at_
    cases same
    exact ⟨names ++ [last], by simp, by rw [List.drop_left], held⟩
  · rintro ⟨parts, proper, rfl, held⟩
    refine ⟨dir ++ parts, ?_, by rw [found, held, List.drop_left]; rfl⟩
    have some_ : (t.file? (dir ++ parts)).isSome = true := by rw [held]; rfl
    have deep := FileTree.length_le_depth (Option.isSome_of_eq_some (FileTree.file?_eq_some_iff.mp held))
    rw [List.length_append] at deep
    refine FileTree.mem_walk.mpr ⟨some_, parts.dropLast, parts.getLast proper, ?_, ?_, rfl⟩
    · rw [List.dropLast_append_getLast]
    · rw [List.length_dropLast]
      omega

/-- The files below a directory have names. -/
def Named (t : FileTree Bytes) (dir : TreePath) : Prop :=
  ∀ parts, (t.file? (dir ++ parts)).isSome = true → ∀ part ∈ parts, FileName part

theorem listing_nodup {t : FileTree Bytes} {dir : TreePath} (named : Named t dir) :
    ((listing t dir).map Prod.fst).Nodup := by
  rw [listing, List.map_filterMap]
  have once := List.Pairwise.and_mem.mp (FileTree.walk_nodup t (fun _ => true) (t.depth + 1) dir)
  refine List.Pairwise.filterMap _ ?_ once
  rintro q q' ⟨walked, walked', other⟩ name at_ name' at_' rfl
  refine other ?_
  obtain ⟨held, names, last, rfl, _⟩ := FileTree.mem_walk.mp walked
  obtain ⟨held', names', last', rfl, _⟩ := FileTree.mem_walk.mp walked'
  obtain ⟨_, there, rfl⟩ := Option.map_eq_some_iff.mp at_
  obtain ⟨_, there', same⟩ := Option.map_eq_some_iff.mp at_'
  obtain ⟨_, _, rfl⟩ := Option.map_eq_some_iff.mp there
  obtain ⟨_, _, rfl⟩ := Option.map_eq_some_iff.mp there'
  rw [List.drop_left, List.drop_left] at same
  rw [joinSlash_inj (by simp) (by simp) (named _ held') (named _ held) same]

/-- No prompt lies where a later one has its temporary file. -/
def Apart (m : BTreeMap String Bytes) : Prop :=
  m.entries.Pairwise (fun a b => Rollback.entryPath a.1 ≠ withTmp (Rollback.entryPath b.1))

def Relative (m : BTreeMap String Bytes) : Prop :=
  ∀ e ∈ m.entries, ∃ parts, parts ≠ [] ∧ (∀ part ∈ parts, FileName part) ∧ e.1 = joinSlash parts

theorem relative_of_read {repoRoot : String} {t : FileTree Bytes} {dir : TreePath} {m : BTreeMap String Bytes}
    (named : Named t dir) (read : readPromptDir repoRoot t dir = .ok m) : Relative m := by
  unfold readPromptDir at read
  intro e mem
  split at read
  · cases read
    cases mem
  · cases read
  · rename_i there
    have whole : readPromptDir repoRoot t dir = _ := readPromptDir_dir (FileTree.isDir_iff.mpr there)
    rw [readPromptDir, there] at whole
    rw [← Except.ok.inj read, Except.ok.inj whole] at mem
    obtain ⟨parts, proper, name, held⟩ := mem_listing.mp (BTreeMap.mem_ofList mem)
    exact ⟨parts, proper, named parts (by rw [held]; rfl), name⟩

end Client

namespace Rollback

theorem leftBy_all_iff {entries : List (TreePath × Bytes)} (paths : (entries.map Prod.fst).Nodup) :
    (∀ e ∈ entries, leftBy entries e.1 = some e.2) ↔ entries.Pairwise (fun a b => a.1 ≠ withTmp b.1) := by
  induction entries using List.reverseRecOn with
  | nil => simp
  | append_singleton before e ih =>
    rw [List.map_append, List.nodup_append] at paths
    obtain ⟨paths, _, apart⟩ := paths
    have other : ∀ a ∈ before, a.1 ≠ e.1 := fun a mem => apart _ (List.mem_map_of_mem mem) _ (by simp)
    rw [List.pairwise_append, ← ih paths]
    have last : leftBy (before ++ [e]) e.1 = some e.2 := by rw [leftBy_append, leave, if_pos rfl]
    constructor
    · intro all
      have kept : ∀ a ∈ before, a.1 ≠ withTmp e.1 ∧ leftBy before a.1 = some a.2 := by
        intro a mem
        have left := all a (List.mem_append_left _ mem)
        rw [leftBy_append, leave, if_neg (other a mem)] at left
        split at left
        · cases left
        · rename_i free
          exact ⟨free, left⟩
      refine ⟨fun a mem => (kept a mem).2, List.pairwise_singleton _ _, fun a mem b last => ?_⟩
      rw [List.mem_singleton.mp last]
      exact (kept a mem).1
    · rintro ⟨all, _, free⟩ a mem
      rcases List.mem_append.mp mem with old | new
      · rw [leftBy_append, leave, if_neg (other a old), if_neg (free a old e (List.mem_singleton_self e))]
        exact all a old
      · rw [List.mem_singleton.mp new]
        exact last

def promptFiles (m : BTreeMap String Bytes) : List (TreePath × Bytes) := m.entries.map (fun e => (entryPath e.1, e.2))

theorem promptFiles_nodup {m : BTreeMap String Bytes} (relative : Client.Relative m) :
    ((promptFiles m).map Prod.fst).Nodup := by
  have names : m.entries.Pairwise (fun a b => a.1 ≠ b.1) := m.sorted.imp (fun h => ne_of_lt h)
  rw [promptFiles, List.map_map, List.Nodup, List.pairwise_map]
  refine (List.Pairwise.and_mem.mp names).imp ?_
  rintro a b ⟨memA, memB, other⟩ same
  obtain ⟨parts, proper, named, nameA⟩ := relative a memA
  obtain ⟨parts', proper', named', nameB⟩ := relative b memB
  have path : entryPath a.1 = entryPath b.1 := same
  rw [nameA, nameB, entryPath_joinSlash proper named, entryPath_joinSlash proper' named'] at path
  rw [nameA, nameB, List.append_cancel_left path] at other
  exact other rfl

theorem mem_of_left {m : BTreeMap String Bytes} (relative : Client.Relative m) {parts : List String} {body : Bytes}
    (left : leftBy (promptFiles m) (promptsDir ++ parts) = some body) :
    (∀ part ∈ parts, FileName part) ∧ (joinSlash parts, body) ∈ m.entries := by
  obtain ⟨e, mem, same⟩ := List.mem_map.mp (mem_of_leftBy left)
  obtain ⟨parts', proper, named, name⟩ := relative e mem
  obtain ⟨path, rfl⟩ := Prod.mk.inj same
  rw [name, entryPath_joinSlash proper named] at path
  obtain rfl := List.append_cancel_left path
  exact ⟨named, name ▸ mem⟩

theorem read_restored {faults : Prop} {repoRoot : String} {m : BTreeMap String Bytes} {t t' : FileTree Bytes}
    (relative : Client.Relative m) (restored : Restored faults (promptFiles m) t t') :
    Client.readPromptDir repoRoot t' promptsDir = .ok m ↔ Client.Apart m := by
  have at_ : ∀ parts, t'.file? (promptsDir ++ parts) = leftBy (promptFiles m) (promptsDir ++ parts) :=
    fun parts => restored.files _ (List.prefix_append _ _)
  have named : Client.Named t' promptsDir := by
    intro parts held
    obtain ⟨body, hb⟩ := Option.isSome_iff_exists.mp held
    exact (mem_of_left relative ((at_ parts).symm.trans hb)).1
  have listed : ∀ e ∈ Client.listing t' promptsDir, e ∈ m.entries := by
    rintro ⟨name, body⟩ mem
    obtain ⟨parts, _, rfl, held⟩ := Client.mem_listing.mp mem
    exact (mem_of_left relative ((at_ parts).symm.trans held)).2
  have all : (∀ e ∈ m.entries, e ∈ Client.listing t' promptsDir) ↔
      ∀ e ∈ promptFiles m, leftBy (promptFiles m) e.1 = some e.2 := by
    rw [promptFiles, List.forall_mem_map]
    refine forall₂_congr (fun e mem => ?_)
    obtain ⟨parts, proper, names, name⟩ := relative e mem
    rw [name, entryPath_joinSlash proper names, ← promptFiles, ← at_ parts]
    rw [show e = (joinSlash parts, e.2) from Prod.ext name rfl, Client.mem_listing]
    constructor
    · rintro ⟨parts', proper', same, held⟩
      have names' := named parts' (by rw [held]; rfl)
      rwa [joinSlash_inj proper proper' names names' same]
    · exact fun held => ⟨parts, proper, rfl, held⟩
  have keys : (m.entries.map Prod.fst).Nodup := (m.keys_sorted.imp (fun h => ne_of_lt h))
  rw [Client.readPromptDir_dir restored.root, Except.ok.injEq, ← BTreeMap.ofList_entries m,
    BTreeMap.ofList_eq_iff (Client.listing_nodup named) keys, BTreeMap.ofList_entries,
    List.perm_ext_iff_of_nodup (Client.listing_nodup named).of_map m.nodup]
  have both : (∀ e, e ∈ Client.listing t' promptsDir ↔ e ∈ m.entries) ↔
      ∀ e ∈ m.entries, e ∈ Client.listing t' promptsDir :=
    ⟨fun h e => (h e).mpr, fun h e => ⟨listed e, h e⟩⟩
  rw [both, all, leftBy_all_iff (promptFiles_nodup relative), promptFiles, List.pairwise_map]
  rfl

variable {Hash M : Type} [DecidableEq Hash] {P : Platform Hash} {hmac : Hmac} {config : DaemonConfig Hash M}
  {d d' : Daemon M}

omit [DecidableEq Hash] in
theorem treeHash?_of_ne {m : BTreeMap String Bytes} (some_ : m.entries ≠ []) :
    treeHash? P m = some ((Object.tree (treeOf P m)).hash P) := if_neg some_

theorem placed_treeOf {files : Files} {entries : List (String × Bytes)} {contents : List Bytes}
    (held : List.Forall₂ (Holds P files) (entries.map (fun e => (e.1, ⟨.blob, P.of e.2⟩))) contents) :
    placed (entries.map (fun e => (e.1, (⟨.blob, P.of e.2⟩ : TypedRef Hash)))) contents =
      entries.map (fun e => (entryPath e.1, e.2)) := by
  induction entries generalizing contents with
  | nil => rfl
  | cons e entries ih =>
    cases held with
    | @cons _ bytes _ _ first rest =>
      have address : P.of bytes = P.of e.2 := hash_of_get first.content
      rw [placed, List.map_cons, List.zipWith_cons_cons, List.map_cons, P.of_injective address]
      exact congrArg _ (ih rest)

/-- A directory of prompts is committed. However the repository and the working directory have changed
since: after a rollback to that commit the command line reads the same prompts again, unless one of
them lies where a later one has its temporary file. -/
theorem prompts_round_trip {S : FsObjectStore Hash} {repoRoot : String} {t : FileTree Bytes} {dir : TreePath}
    {inputs : CommitInputs Hash} {time : Int} {origin : String} {r r' : Repository} {target : CommitOutputs Hash}
    {args : RollbackArgs} {peerUid : Option UInt32} {nowSeconds : UInt64} {now : Int} {out : RollbackOutput}
    (named : Client.Named t dir) (read : Client.readPromptDir repoRoot t dir = .ok inputs.prompts)
    (some_ : inputs.prompts.entries ≠ [])
    (produced : (stageAndCommitWithNow P S origin inputs time).run r = (.ok target, r'))
    (resolved : ((Refs.resolve P args.target).run d.repo.agentic).1 = .ok (some target.commitHash))
    (ran : (execute P hmac config args.live peerUid nowSeconds now).run d = (.ok out, d')) :
    Client.readPromptDir config.repoRoot d'.work promptsDir = .ok inputs.prompts ↔ Client.Apart inputs.prompts := by
  rw [(stageAndCommit_staged produced).address] at resolved
  obtain ⟨_, _, _, _, _, _, d₂, _, rewritten, recorded⟩ := execute_run resolved ran
  rw [forwardRecord_repo recorded]
  have tree : (inputs.commit P time).prompts = some ((Object.tree (treeOf P inputs.prompts)).hash P) :=
    treeHash?_of_ne some_
  have restored := promptsStep_run tree rewritten
  obtain ⟨_, found, contents, there, held, whole⟩ := restorePrompts_run restored
  obtain rfl : found = treeOf P inputs.prompts :=
    Object.tree.inj (Object.preimage_inj P rfl (P.of_injective (hash_of_get there)))
  rw [treeOf_entries] at held whole
  rw [placed_treeOf held] at whole
  exact read_restored (Client.relative_of_read named read) whole

/- With everything in the store a restore is work on files alone. -/

omit [DecidableEq Hash] in
theorem onWork_bind {α β : Type} (p : WorkProgram Hash α) (k : α → WorkProgram Hash β) :
    (onWork (p.bind k) : DaemonProgram Hash M β) = (onWork p).bind (fun a => onWork (k a)) := by
  induction p with
  | done r => cases r <;> rfl
  | op act next fault ih ihFault =>
    show Program.op _ _ _ = Program.op _ _ _
    rw [show ((fault.bind k).focus Daemon.work _ : DaemonProgram Hash M β) = _ from ihFault]
    exact congrArg (Program.op _ · _) (funext (fun d => ih d.work))

def restoreFile (repoRoot name : String) (bytes : Bytes) : WorkProgram Hash Unit :=
  (Program.ofExcept (validateTreeEntryName name)).bind (fun _ =>
    (createParents name).bind (fun _ => writeBlobSafely repoRoot name bytes))

def restoreFiles (repoRoot : String) (entries : List (String × Bytes)) : WorkProgram Hash Unit :=
  (FileTree.createDirAll .io [] promptsDir).bind (fun _ =>
    (Program.forEach (fun e => restoreFile repoRoot e.1 e.2) entries).bind (fun _ =>
      sweep repoRoot (entries.map (fun e => entryPath e.1))))

theorem run_restoreEntry {repoRoot name : String} {bytes : Bytes}
    (held : Has P d.repo.objects (P.of bytes) (.blob ⟨bytes⟩)) :
    (restoreEntry repoRoot P name ⟨.blob, P.of bytes⟩ : DaemonProgram Hash M Unit).run d =
      (onWork (restoreFile repoRoot name bytes)).run d := by
  show (Program.bind _ _).run d = _
  rw [restoreFile]
  cases (validateTreeEntryName name : Except (DaemonError Hash) Unit) with
  | error e => rfl
  | ok _ =>
    show (Program.bind (onWork (createParents name)) _).run d =
      (onWork (Program.bind (createParents name) _)).run d
    rw [onWork_bind, Program.run_bind, Program.run_bind, run_onWork]
    cases ((createParents name : WorkProgram Hash Unit).run d.work).1 with
    | error e => rfl
    | ok _ => exact Program.run_bind_of_ok (run_loadBlob held)

theorem run_restoreEntries {repoRoot : String} {entries : List (String × Bytes)}
    (held : ∀ e ∈ entries, Has P d.repo.objects (P.of e.2) (.blob ⟨e.2⟩)) :
    (Program.forEach (fun e => restoreEntry repoRoot P e.1 e.2)
      (entries.map (fun e => (e.1, ⟨.blob, P.of e.2⟩))) : DaemonProgram Hash M Unit).run d =
    (onWork (Program.forEach (fun e => restoreFile repoRoot e.1 e.2) entries)).run d := by
  induction entries generalizing d with
  | nil => rfl
  | cons e entries ih =>
    rw [List.map_cons, Program.forEach, Program.forEach, onWork_bind, Program.run_bind, Program.run_bind,
      run_restoreEntry (held e List.mem_cons_self), run_onWork]
    cases ((restoreFile repoRoot e.1 e.2 : WorkProgram Hash Unit).run d.work).1 with
    | error e => rfl
    | ok _ => exact ih (fun e' mem => held e' (List.mem_cons_of_mem e mem))

theorem run_restorePrompts {repoRoot : String} {m : BTreeMap String Bytes} (some_ : m.entries ≠ [])
    (held : HoldsTree P d.repo.objects m) :
    (restorePrompts repoRoot P ((Object.tree (treeOf P m)).hash P) : DaemonProgram Hash M Unit).run d =
      (onWork (restoreFiles repoRoot m.entries)).run d := by
  show (Program.bind _ _).run d = _
  rw [restoreFiles, onWork_bind, Program.run_bind, Program.run_bind, run_onWork]
  cases ((FileTree.createDirAll (.io : DaemonError Hash) [] promptsDir).run d.work).1 with
  | error e => rfl
  | ok _ =>
    dsimp only
    generalize ((FileTree.createDirAll (.io : DaemonError Hash) [] promptsDir).run d.work).2 = work
    refine (Program.run_bind_of_ok (run_loadTree (d := { d with work }) (held.tree some_))).trans ?_
    show (Program.bind _ _).run _ = _
    rw [onWork_bind, Program.run_bind, Program.run_bind, treeOf_entries,
      run_restoreEntries (d := { d with work }) held.blobs, List.map_map]
    rfl

/- A prompt is committed, and comes back into a directory that has lost it. -/

def prompted : CommitInputs Bytes :=
  { tooled with
    prompts := BTreeMap.empty.insert "system.md" [104, 105]
    tools := BTreeMap.empty
    model := none }

def promptedWork : FileTree Bytes :=
  ((FileTree.empty.createDir ["prompts"]).bind (fun t => t.write ["prompts", "system.md"] [104, 105])).getD .empty

theorem promptedWork_named : Client.Named promptedWork promptsDir := by
  have all : ∀ e ∈ promptedWork.nodes.entries, e.2 ≠ .dir → e.1 = ["prompts", "system.md"] := by decide +kernel
  intro parts held part mem
  obtain ⟨c, hc⟩ := Option.isSome_iff_exists.mp held
  have listed := AList.mem_lookup_iff.mp (FileTree.file?_eq_some_iff.mp hc)
  have path := all _ listed (by simp)
  have only : parts = ["system.md"] := List.append_cancel_left path
  rw [only] at mem
  rw [List.mem_singleton.mp mem]
  exact ⟨by decide, by decide, by decide, by decide⟩

def promptedHash : Bytes := (Object.commit (prompted.commit Platform.sample 0)).hash Platform.sample

theorem prompted_moved : ((Refs.writeBranch Platform.sample "main" promptedHash).run Refs.opened).1 = .ok () := by
  decide +kernel

theorem promptedWork_read : Client.readPromptDir "." promptedWork promptsDir = .ok prompted.prompts := by
  decide +kernel

theorem prompts_round_trip_system : ∃ (d d' : Daemon Unit) (out : RollbackOutput),
    (execute Platform.sample (fun _ m => m) Daemon.quiet toMain.live none 0 0).run d = (.ok out, d') ∧
      d.work.node? promptsDir = none ∧
      Client.readPromptDir "." d'.work promptsDir = .ok prompted.prompts := by
  obtain ⟨files, staged, put⟩ := stageCommit_puts (FsObjectStore.silent_accepts prompted) 0 (fun _ => none)
  have apart : ∀ o ∈ prompted.objects Platform.sample 0, ∀ o' ∈ prompted.objects Platform.sample 0,
      o.hash Platform.sample = o'.hash Platform.sample →
      (o.write Platform.sample).2 = (o'.write Platform.sample).2 := by decide +kernel
  have held : ∀ o ∈ prompted.objects Platform.sample 0, Has Platform.sample files (o.hash Platform.sample) o :=
    fun o mem => has_of_puts put mem (Widens.refl files) (unshared_of_puts put apart mem)
  have holds := HoldsInputs.of_objects held
  have some_ : prompted.prompts.entries ≠ [] := by decide
  have moved : (Refs.writeBranch Platform.sample "main" promptedHash).run Refs.opened = (.ok (), _) :=
    outcome_of (by decide +kernel)
  have produced : (stageAndCommitWithNow Platform.sample .silent "main" prompted 0).run
      ⟨fun _ => none, Refs.opened⟩ = (.ok { commitHash := promptedHash, branch := "main" }, _) :=
    run_stageAndCommit staged moved
  let refs := Refs.onMain Platform.sample promptedHash
  have head : (Refs.readHead Platform.sample).run refs = (.ok (some (.branch "main")), refs) :=
    Prod.ext (by decide +kernel) (Refs.readHead_still.run _)
  let d : Daemon Unit := { Daemon.start with repo := { objects := files, agentic := refs } }
  let hash := (Object.tree (treeOf Platform.sample prompted.prompts)).hash Platform.sample
  obtain ⟨work, worked⟩ : ∃ work, (restoreFiles "." prompted.prompts.entries : WorkProgram Bytes Unit).run
      FileTree.empty = (.ok (), work) := ⟨_, outcome_of (by decide +kernel)⟩
  have restored : (restorePrompts "." Platform.sample hash : DaemonProgram Bytes Unit Unit).run d =
      (.ok (), { d with work }) := by
    refine (run_restorePrompts some_ holds.prompts).trans ((run_onWork _ d).trans ?_)
    exact congrArg (fun r => (r.1, { d with work := r.2 })) worked
  have tree : (prompted.commit Platform.sample 0).prompts = some hash := treeHash?_of_ne some_
  obtain ⟨plan, rewritten⟩ : ∃ plan, (promptsStep Platform.sample Daemon.quiet toMain.live
      (prompted.commit Platform.sample 0)).run d = (.ok plan, { d with work }) := by
    simp only [promptsStep, tree]
    exact ⟨_, Program.run_bind_of_ok restored⟩
  have promptsRead : (readTextBlobs Platform.sample (treeHash? Platform.sample prompted.prompts) :
      DaemonProgram Bytes Unit _).run { d with work } = (.ok prompted.prompts, { d with work }) :=
    run_readTextBlobs holds.prompts
  let again := recordInputs Platform.sample Daemon.quiet promptedHash (prompted.commit Platform.sample 0)
    (some promptedHash) none prompted.prompts BTreeMap.empty none
  obtain ⟨objects, recorded, _⟩ := stageCommit_puts (FsObjectStore.silent_accepts again) 0 files
  have moved' : (Refs.writeBranch Platform.sample "main"
      ((Object.commit (again.commit Platform.sample 0)).hash Platform.sample)).run refs = (.ok (), _) :=
    outcome_of (by decide +kernel)
  have commit : Has Platform.sample files promptedHash (.commit (prompted.commit Platform.sample 0)) :=
    held _ (CommitInputs.commit_mem_objects prompted 0)
  obtain ⟨_, remembered⟩ : ∃ plan, (memoryStep Platform.sample Daemon.quiet toMain.live
      (prompted.commit Platform.sample 0)).run d = (.ok plan, d) := ⟨_, rfl⟩
  have record : (forwardRecord Platform.sample Daemon.quiet promptedHash (prompted.commit Platform.sample 0) "main"
      (some promptedHash) none 0).run { d with work } = (.ok _, _) :=
    run_forwardRecord promptsRead rfl rfl recorded moved'
  have rolled : ∃ out, _ ∧ (execute Platform.sample (fun _ m => m) Daemon.quiet toMain.live none 0 0).run d =
      (.ok out, _) :=
    run_execute_stages rfl rfl rfl (Refs.onMain_resolve prompted_moved) commit head
      (Refs.onMain_tip prompted_moved) remembered rewritten record
  obtain ⟨out, _, ran⟩ := rolled
  refine ⟨d, _, out, ran, rfl, ?_⟩
  refine (prompts_round_trip promptedWork_named promptedWork_read some_ produced ?_ ran).mpr ?_
  · exact congrArg Prod.fst (Refs.onMain_resolve prompted_moved)
  · have one : prompted.prompts.entries = [("system.md", [104, 105])] := by decide
    rw [Client.Apart, one]
    exact List.pairwise_singleton _ _

end Rollback

end GitAgentic
