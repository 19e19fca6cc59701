import GitAgentic.Daemon.Writeback
import GitAgentic.Data.Links

/-! Prompts written back on a disk with symbolic links. Every call of the kernel resolves the path
it is given, and a write goes through a link at its end. -/
namespace GitAgentic

namespace Rollback.OnDisk

abbrev DiskProgram (Hash α : Type) := Program (LinkTree Bytes) (DaemonError Hash) α

section

variable {Hash α : Type}

def onDisk (e : DaemonError Hash) (p : Program (LinkTree Bytes) LinkFault α) : DiskProgram Hash α :=
  p.mapError (fun _ => e)

def entryDir (name : String) : List String := (entryPath name).dropLast

def entryLast (name : String) : String := (entryPath name).getLast?.getD ""

variable [DecidableEq Hash] (P : Platform Hash) (repo : TreePath) (repoRoot : String)
  (objects : LinkTree Bytes → Files)

/- Readers. The object files lie on the same disk. -/

def loadTree (hash : Hash) : DiskProgram Hash (Tree Hash) :=
  Program.read (fun t => match get P (objects t) hash with
    | .error e => .error (.core e)
    | .ok (.tree tree) => .ok tree
    | .ok other => .error (unexpectedKind P "tree" hash other.kind)) (.core .io)

def loadBlob (hash : Hash) : DiskProgram Hash Blob :=
  Program.read (fun t => match get P (objects t) hash with
    | .error e => .error (.core e)
    | .ok (.blob blob) => .ok blob
    | .ok other => .error (unexpectedKind P "blob" hash other.kind)) (.core .io)

/-- `symlink_metadata`: whether the path is a link. A path that ends in `/` is followed. -/
def isSymlink (name : String) (t : LinkTree Bytes) : Except LinkFault Bool :=
  if hasNul name then .error .other
  else if namesDirectory name then
    match t.resolveDir repo (entryPath name) with
    | .error .other => .error .other
    | _ => .ok false
  else
    match t.lstat repo (entryDir name) (entryLast name) with
    | .ok (.file (.link _)) => .ok true
    | .error .other => .error .other
    | _ => .ok false

/-- The link at the path goes, then the temporary file is written and renamed. -/
def writeBlobSafely (name : String) (bytes : Bytes) : DiskProgram Hash Unit := do
  let link ← onDisk (.context ("checking for symlink at " ++ shown repoRoot name ++
    " before prompt write") .io) (Program.read (isSymlink repo name) .other)
  if link then
    onDisk (.context ("removing pre-existing symlink at " ++ shown repoRoot name) .io)
      (LinkTree.call (fun t => t.unlink repo (entryDir name) (entryLast name)))
  onDisk (.context ("writing temp file " ++ shown repoRoot (shownTmp name)) .io)
    (LinkTree.call (fun t => t.writeFile repo (entryDir name) (tmpName (entryLast name)) bytes))
  onDisk (.context ("renaming " ++ shown repoRoot (shownTmp name) ++ " → " ++ shown repoRoot name) .io)
    (LinkTree.call (fun t => if namesDirectory name then .error .other
      else t.renameIn repo (entryDir name) (tmpName (entryLast name)) (entryLast name)))

def createParents (name : String) : DiskProgram Hash Unit :=
  if (entryDir name).any hasNul then Program.fail .io
  else onDisk .io (LinkTree.createDirAll repo (entryDir name))

def restoreEntry (name : String) (r : TypedRef Hash) : DiskProgram Hash Unit := do
  Program.ofExcept (validateTreeEntryName name)
  createParents repo name
  let blob ← loadBlob P objects r.hash
  writeBlobSafely repo repoRoot name blob.bytes

def readDir (here : List String) : DiskProgram Hash (List (String × TreeNode (Linked Bytes))) :=
  onDisk .io (Program.read (fun t => t.list repo here) .other)

def removeIfEmpty (here : List String) (name : String) : DiskProgram Hash Unit := do
  if here ++ [name] = promptsDir then return ()
  else
    let left ← readDir repo (here ++ [name])
    if left = [] then
      let _ ← (LinkTree.call (fun t => t.rmdir repo here name)).attempt
      return ()
    else return ()

local instance lawfulPaths : LawfulBEq TreePath := inferInstance

def removeOrphan (wanted : List TreePath) (here : List String) (name : String) : DiskProgram Hash Unit :=
  if here ++ [name] ∈ wanted then return ()
  else onDisk (.context ("removing orphan prompt " ++ repoRoot ++ "/" ++ joinSlash (here ++ [name])) .io)
    (LinkTree.call (fun t => t.unlink repo here name))

/-- Links are listed as what they are: a link is no directory to go down into. -/
def sweepOrphans (wanted : List TreePath) : Nat → List String → DiskProgram Hash Unit
  | 0, _ => return ()
  | fuel + 1, here => do
    let entries ← readDir repo here
    Program.forEach (fun e => match e.2 with
      | .dir => do
        sweepOrphans wanted fuel (here ++ [e.1])
        removeIfEmpty repo here e.1
      | .file _ => removeOrphan repo repoRoot wanted here e.1) entries

def sweep (wanted : List TreePath) : DiskProgram Hash Unit := do
  let depth ← Program.read (fun t => .ok t.depth) .io
  sweepOrphans repo repoRoot wanted (depth + 1) promptsDir

def restoreEntries : List (String × TypedRef Hash) → DiskProgram Hash Unit :=
  Program.forEach (fun e => restoreEntry P repo repoRoot objects e.1 e.2)

def restorePrompts (promptsHash : Hash) : DiskProgram Hash Unit := do
  onDisk .io (LinkTree.createDirAll repo promptsDir)
  let tree ← loadTree P objects promptsHash
  restoreEntries P repo repoRoot objects tree.entries.entries
  sweep repo repoRoot (tree.entries.entries.map (fun e => entryPath e.1))

/-- The directory that holds the prompts. -/
def promptsRoot : TreePath := repo ++ promptsDir

def unlinked (name : String) (t : LinkTree Bytes) : LinkTree Bytes :=
  match isSymlink repo name t with
  | .ok true =>
    match t.unlink repo (entryDir name) (entryLast name) with
    | .ok t' => t'
    | .error _ => t
  | _ => t

/-- No link takes an entry out of the prompts: directories are made inside, and where the content
is there, so are the directory it is written to and the place of its temporary file. -/
structure EntryWithin (name : String) (r : TypedRef Hash) (t : LinkTree Bytes) : Prop where
  made : LinkTree.MakesWithin (promptsRoot repo) t repo (entryDir name)
  entered : ∀ blob, get P (objects t) r.hash = .ok (.blob blob) → isSymlink repo name t ≠ .error .other →
    namesDirectory name = false → ∀ d, t.resolveDir repo (entryDir name) = .ok d → promptsRoot repo <+: d
  written : ∀ blob, get P (objects t) r.hash = .ok (.blob blob) → isSymlink repo name t ≠ .error .other →
    ∀ l, (unlinked repo name t).resolveFile repo (entryDir name) (tmpName (entryLast name)) = .ok l →
      promptsRoot repo <+: l

def EntriesWithin : List (String × TypedRef Hash) → LinkTree Bytes → Prop
  | [], t => t.NoLink (promptsRoot repo) ∨ ∀ d, t.resolveDir repo promptsDir ≠ .ok d
  | e :: es, t =>
    ((validateTreeEntryName e.1 : Except (DaemonError Hash) Unit) = .ok () →
      EntryWithin P repo objects e.1 e.2 t) ∧
    ∀ t', Program.Reaches (restoreEntry P repo repoRoot objects e.1 e.2, t) (.done (.ok ()), t') →
      EntriesWithin es t'

def RestoresWithin (promptsHash : Hash) (t : LinkTree Bytes) : Prop :=
  ∀ t', Program.Reaches ((LinkTree.createDirAll repo promptsDir : Program (LinkTree Bytes) LinkFault Unit), t)
      (.done (.ok ()), t') →
    ∀ tree, get P (objects t') promptsHash = .ok (.tree tree) →
      EntriesWithin P repo repoRoot objects tree.entries.entries t'

end

section

variable {Hash : Type} {repo : TreePath} {repoRoot : String} {t : LinkTree Bytes}

open LinkTree

theorem onDisk_safe {α : Type} {e : DaemonError Hash} {p : Program (LinkTree Bytes) LinkFault α}
    {inv : LinkTree Bytes → Prop} {post : Except (DaemonError Hash) α → LinkTree Bytes → Prop}
    (safe : p.Safe True inv (fun r t => post (r.mapError (fun _ => e)) t) t) :
    (onDisk e p).Safe True inv post t := Program.Safe.mapError safe

theorem onDisk_call_safe {e : DaemonError Hash} {f : LinkTree Bytes → Except LinkFault (LinkTree Bytes)}
    {inv : LinkTree Bytes → Prop} {post : Except (DaemonError Hash) Unit → LinkTree Bytes → Prop} (stop : inv t)
    (acted : ∀ t', f t = .ok t' → post (.ok ()) t') (failed : post (.error e) t) :
    (onDisk e (LinkTree.call f)).Safe True inv post t :=
  onDisk_safe (call_safe stop acted (fun _ => failed))

theorem unlinked_keeps (name : String) : Keeps (unlinked repo name t) t := by
  have same : Keeps t t := ⟨fun _ h => h, fun _ _ h => h⟩
  unfold unlinked
  split
  · split
    · rename_i t' removed
      obtain ⟨d, _, gone⟩ := unlink_eq_ok removed
      exact keeps_unlink gone
    · exact same
  · exact same

theorem isSymlink_not_directory {name : String} (link : isSymlink repo name t = .ok true) :
    namesDirectory name = false := by
  unfold isSymlink at link
  split at link
  · cases link
  · split at link
    · split at link <;> cases link
    · rename_i notDir
      simpa using notDir

theorem writeBlobSafely_safe {name : String} {bytes : Bytes}
    (entered : isSymlink repo name t ≠ .error .other → namesDirectory name = false →
      ∀ d, t.resolveDir repo (entryDir name) = .ok d → promptsRoot repo <+: d)
    (written : isSymlink repo name t ≠ .error .other →
      ∀ l, (unlinked repo name t).resolveFile repo (entryDir name) (tmpName (entryLast name)) = .ok l →
        promptsRoot repo <+: l) :
    (writeBlobSafely repo repoRoot name bytes : DiskProgram Hash Unit).Safe True
      (Within (promptsRoot repo) t) (fun _ t' => Within (promptsRoot repo) t t') t := by
  have same := Within.refl (promptsRoot repo) t
  -- from where the temporary file is written
  have rest : isSymlink repo name t ≠ .error .other → ∀ u, u = unlinked repo name t →
      Within (promptsRoot repo) t u → (do
        onDisk (.context ("writing temp file " ++ shown repoRoot (shownTmp name)) .io)
          (LinkTree.call (fun t => t.writeFile repo (entryDir name) (tmpName (entryLast name)) bytes))
        onDisk (.context ("renaming " ++ shown repoRoot (shownTmp name) ++ " → " ++ shown repoRoot name) .io)
          (LinkTree.call (fun t => if namesDirectory name then .error .other
            else t.renameIn repo (entryDir name) (tmpName (entryLast name)) (entryLast name))) :
        DiskProgram Hash Unit).Safe True (Within (promptsRoot repo) t)
          (fun _ t' => Within (promptsRoot repo) t t') u := by
    intro seen u unl within
    refine Program.Safe.bind (onDisk_call_safe within (fun v wrote => ?_) within)
    obtain ⟨l, located, _, nodes⟩ := writeFile_eq_ok wrote
    rw [unl] at located
    have inside := written seen l located
    have within' : Within (promptsRoot repo) t v :=
      within.trans (Within.at inside (fun q other => by rw [nodes q, if_neg other]))
    refine onDisk_call_safe within' (fun w moved => ?_) within'
    split at moved
    · cases moved
    · rename_i notDir
      obtain ⟨d, c, entered', _, nodes'⟩ := renameIn_eq_ok moved
      have before : t.resolveDir repo (entryDir name) = .ok d :=
        enter_mono (unlinked_keeps name) (unl ▸ enter_mono (keeps_write nodes) entered')
      have inside' := entered seen (by simpa using notDir) d before
      refine within'.trans (fun p outside => ?_)
      have apart : ∀ last, p ≠ d ++ [last] := by
        rintro last rfl
        exact outside (inside'.trans (List.prefix_append _ _))
      rw [nodes' p, if_neg (apart _), if_neg (apart _)]
  refine Program.Safe.bind (onDisk_safe (Program.Safe.call same ?_ (fun _ => same)))
  cases link : isSymlink repo name t with
  | error e => exact same
  | ok isLink =>
    have seen : isSymlink repo name t ≠ .error .other := by
      rw [link]
      exact nofun
    cases isLink with
    | false => exact rest seen t (by simp only [unlinked, link]) same
    | true =>
      refine Program.Safe.bind (onDisk_call_safe same (fun u removed => ?_) same)
      refine rest seen u ?_ ?_
      · simp only [unlinked, link, removed]
      · obtain ⟨d, entered', gone⟩ := unlink_eq_ok removed
        have inside := entered seen (isSymlink_not_directory link) d entered'
        refine Within.at (inside.trans (List.prefix_append _ [entryLast name])) (fun q other => ?_)
        rw [(FileTree.removeFile_node? gone).2 q, if_neg other]

theorem writeBlobSafely_fresh {name : String} {bytes : Bytes}
    (fresh : Fresh (promptsRoot repo) t repo (entryDir name)) :
    (writeBlobSafely repo repoRoot name bytes : DiskProgram Hash Unit).Safe True
      (Within (promptsRoot repo) t) (fun _ t' => Within (promptsRoot repo) t t') t := by
  obtain ⟨d, entered, inside, bare⟩ := fresh
  refine writeBlobSafely_safe (fun _ _ d' entered' => ?_) (fun _ l located => ?_)
  · rw [Except.ok.inj (entered'.symm.trans entered)]
    exact inside
  · have noLink : isSymlink repo name t ≠ .ok true := by
      intro link
      have notDir := isSymlink_not_directory link
      unfold isSymlink at link
      rw [notDir] at link
      simp only [lstat, entered, bind, Except.bind, bare] at link
      split at link <;> cases link
    have still : unlinked repo name t = t := by
      unfold unlinked
      split
      · rename_i link
        exact absurd link noLink
      · rfl
    rw [still, resolveFile, List.map_append] at located
    have plain : t.NoLink (d ++ [tmpName (entryLast name)]) := by
      intro target there
      rw [bare] at there
      cases there
    rw [locate_snoc plain entered located]
    exact inside.trans (List.prefix_append _ _)

variable [DecidableEq Hash] {P : Platform Hash} {objects : LinkTree Bytes → Files}

theorem loadBlob_safe {hash : Hash} {inv : LinkTree Bytes → Prop}
    {post : Except (DaemonError Hash) Blob → LinkTree Bytes → Prop} (stop : inv t)
    (failed : ∀ e, post (.error e) t)
    (found : ∀ blob, get P (objects t) hash = .ok (.blob blob) → post (.ok blob) t) :
    (loadBlob P objects hash).Safe True inv post t := by
  refine Program.Safe.call stop ?_ (fun _ => failed _)
  cases there : get P (objects t) hash with
  | error e =>
    simp only [there]
    exact failed _
  | ok object =>
    cases object <;> simp only [there]
    case blob blob => exact found blob there
    all_goals exact failed _

theorem loadTree_safe {hash : Hash} {inv : LinkTree Bytes → Prop}
    {post : Except (DaemonError Hash) (Tree Hash) → LinkTree Bytes → Prop} (stop : inv t)
    (failed : ∀ e, post (.error e) t)
    (found : ∀ tree, get P (objects t) hash = .ok (.tree tree) → post (.ok tree) t) :
    (loadTree P objects hash).Safe True inv post t := by
  refine Program.Safe.call stop ?_ (fun _ => failed _)
  cases there : get P (objects t) hash with
  | error e =>
    simp only [there]
    exact failed _
  | ok object =>
    cases object <;> simp only [there]
    case tree tree => exact found tree there
    all_goals exact failed _

theorem restoreEntry_safe {name : String} {r : TypedRef Hash}
    (within : (validateTreeEntryName name : Except (DaemonError Hash) Unit) = .ok () →
      EntryWithin P repo objects name r t) :
    (restoreEntry P repo repoRoot objects name r).Safe True (Within (promptsRoot repo) t)
      (fun _ t' => Within (promptsRoot repo) t t') t := by
  have same := Within.refl (promptsRoot repo) t
  refine Program.Safe.bind (Program.Safe.value ?_)
  cases valid : (validateTreeEntryName name : Except (DaemonError Hash) Unit) with
  | error e => exact same
  | ok _ =>
    have entry := within valid
    refine Program.Safe.bind ?_
    unfold createParents
    split
    · exact same
    · refine onDisk_safe ((createDirAll_safe entry.made).mono (fun _ h => h) ?_)
      rintro (e | _) u ⟨made, provided⟩
      · exact made
      · refine Program.Safe.bind (loadBlob_safe made (fun _ => made) (fun blob found => ?_))
        rcases provided rfl with rfl | fresh
        · exact writeBlobSafely_safe (entry.entered blob found) (entry.written blob found)
        · exact (writeBlobSafely_fresh fresh).mono (fun _ => made.trans) (fun _ _ => made.trans)

/- The sweep. -/

/-- No link lies on the way. -/
def Plain (repo : TreePath) (t : LinkTree Bytes) (here : List String) : Prop :=
  ∀ q, q <+: here → q ≠ [] → t.NoLink (repo ++ q)

def Removed (t t' : LinkTree Bytes) : Prop := ∀ q, t'.node? q = t.node? q ∨ t'.node? q = none

theorem Removed.refl (t : LinkTree Bytes) : Removed t t := fun _ => Or.inl rfl

theorem Removed.trans {u v : LinkTree Bytes} (first : Removed t u) (second : Removed u v) : Removed t v := by
  intro q
  rcases second q with same | gone
  · rw [same]
    exact first q
  · exact Or.inr gone

theorem Removed.noLink {u : LinkTree Bytes} (removed : Removed t u) {q : TreePath} (plain : t.NoLink q) :
    u.NoLink q := by
  intro target there
  rcases removed q with same | gone
  · exact plain target (same ▸ there)
  · rw [gone] at there
    cases there

theorem Removed.plain {u : LinkTree Bytes} (removed : Removed t u) {here : List String}
    (plain : Plain repo t here) : Plain repo u here := fun q short proper => removed.noLink (plain q short proper)

def Swept (repo : TreePath) (t t' : LinkTree Bytes) : Prop := Within (promptsRoot repo) t t' ∧ Removed t t'

theorem Swept.refl (t : LinkTree Bytes) : Swept repo t t := ⟨Within.refl _ t, Removed.refl t⟩

theorem Swept.trans {u v : LinkTree Bytes} (first : Swept repo t u) (second : Swept repo u v) :
    Swept repo t v := ⟨first.1.trans second.1, first.2.trans second.2⟩

theorem swept_of_gone {u : LinkTree Bytes} {here : List String} {name : String} {d : TreePath}
    (below : promptsDir <+: here) (plain : Plain repo t here) (entered : t.resolveDir repo here = .ok d)
    (nodes : ∀ q, u.node? q = if q = d ++ [name] then none else t.node? q) : Swept repo t u := by
  have there : d = repo ++ here := enter_plain plain entered
  have inside : promptsRoot repo <+: d ++ [name] := by
    rw [there, List.append_assoc, promptsRoot]
    exact (List.prefix_append_right_inj repo).mpr (below.trans (List.prefix_append _ _))
  refine ⟨Within.at inside (fun q other => by rw [nodes q, if_neg other]), fun q => ?_⟩
  rw [nodes q]
  split
  · exact Or.inr rfl
  · exact Or.inl rfl

omit [DecidableEq Hash] in
theorem readDir_safe {here : List String} {inv : LinkTree Bytes → Prop}
    {post : Except (DaemonError Hash) (List (String × TreeNode (Linked Bytes))) → LinkTree Bytes → Prop}
    (stop : inv t) (failed : post (.error .io) t)
    (listed : ∀ d, t.resolveDir repo here = .ok d → post (.ok (FileTree.readDir t d)) t) :
    (readDir repo here : DiskProgram Hash _).Safe True inv post t := by
  refine onDisk_safe (Program.Safe.call stop ?_ (fun _ => failed))
  cases entered : t.resolveDir repo here with
  | error e =>
    simp only [LinkTree.list, entered]
    exact failed
  | ok d =>
    simp only [LinkTree.list, entered]
    exact listed d entered

/-- However its operations go, it only takes prompts away. -/
abbrev Sweeps (repo : TreePath) (p : DiskProgram Hash Unit) (t : LinkTree Bytes) : Prop :=
  p.Moves True (Swept repo) (fun _ => True) (fun _ _ => True) t

omit [DecidableEq Hash] in
theorem removeOrphan_sweeps {wanted : List TreePath} {here : List String} {name : String}
    (below : promptsDir <+: here) (plain : Plain repo t here) :
    Sweeps repo (removeOrphan repo repoRoot wanted here name : DiskProgram Hash Unit) t := by
  have same : Swept repo t t := Swept.refl t
  unfold removeOrphan
  split
  · exact ⟨same, trivial⟩
  · refine onDisk_call_safe same (fun u removed => ⟨?_, trivial⟩) ⟨same, trivial⟩
    obtain ⟨d, entered, gone⟩ := unlink_eq_ok removed
    exact swept_of_gone below plain entered (FileTree.removeFile_node? gone).2

omit [DecidableEq Hash] in
theorem removeIfEmpty_sweeps {here : List String} {name : String} (below : promptsDir <+: here)
    (plain : Plain repo t here) :
    Sweeps repo (removeIfEmpty repo here name : DiskProgram Hash Unit) t := by
  have same : Swept repo t t := Swept.refl t
  unfold removeIfEmpty
  split
  · exact ⟨same, trivial⟩
  · refine Program.Safe.bind (readDir_safe same ⟨same, trivial⟩ (fun d _ => ?_))
    dsimp only
    split
    · refine Program.Safe.bind (Program.Safe.attempt (call_safe same (fun u removed => ⟨?_, trivial⟩)
        (fun _ => ⟨same, trivial⟩)))
      obtain ⟨d', entered, nodes⟩ := rmdir_eq_ok removed
      exact swept_of_gone below plain entered nodes
    · exact ⟨same, trivial⟩

omit [DecidableEq Hash] in
theorem sweepOrphans_sweeps {wanted : List TreePath} (fuel : Nat) {here : List String}
    (below : promptsDir <+: here) (plain : Plain repo t here) :
    Sweeps repo (sweepOrphans repo repoRoot wanted fuel here : DiskProgram Hash Unit) t := by
  induction fuel generalizing here t with
  | zero => exact Program.Moves.value (Swept.refl t) trivial
  | succ fuel ih =>
    have same : Swept repo t t := Swept.refl t
    refine Program.Safe.bind (readDir_safe same ⟨same, trivial⟩ (fun d entered => ?_))
    have there : d = repo ++ here := enter_plain plain entered
    refine Program.Moves.forEach _ (fun u _ => Swept.refl u) Swept.trans
      (fun u v more swept => Swept.trans swept more) same (fun e listed u swept => ?_)
    obtain ⟨name, node⟩ := e
    cases node with
    | file c => exact removeOrphan_sweeps below (swept.2.plain plain)
    | dir =>
      -- it was listed as a directory, so it is no link, even if it is gone by now
      have plainBelow : Plain repo t (here ++ [name]) := by
        intro q short proper
        rcases List.prefix_concat_iff.mp short with rfl | short
        · intro target link
          have dir := FileTree.mem_readDir.mp listed
          rw [there, List.append_assoc, link] at dir
          cases dir
        · exact plain q short proper
      have deeper := ih (below.trans (List.prefix_append _ [name])) (swept.2.plain plainBelow)
      exact Program.Moves.bind Swept.trans deeper
        (fun _ v gone _ => removeIfEmpty_sweeps below (gone.2.plain (swept.2.plain plain)))

/- The whole. -/

theorem restoreEntries_safe {entries : List (String × TypedRef Hash)} {wanted : List TreePath}
    (within : EntriesWithin P repo repoRoot objects entries t) :
    ((restoreEntries P repo repoRoot objects entries).bind (fun _ => sweep repo repoRoot wanted)).Safe True
      (Within (promptsRoot repo) t) (fun _ t' => Within (promptsRoot repo) t t') t := by
  have same := Within.refl (promptsRoot repo) t
  induction entries generalizing t with
  | nil =>
    refine Program.Safe.bind (show Program.Safe True _ _ (Program.done (.ok ())) t from ?_)
    refine Program.Safe.bind (Program.Safe.call same ?_ (fun _ => same))
    rcases within with plain | absent
    · have plain : Plain repo t promptsDir := by
        intro q short proper
        rcases List.prefix_concat_iff.mp (show q <+: [] ++ ["prompts"] from short) with rfl | short
        · exact plain
        · exact absurd (List.prefix_nil.mp short) proper
      exact Program.Safe.mono (sweepOrphans_sweeps (t.depth + 1) (List.prefix_refl _) plain)
        (fun _ h => h.1) (fun _ _ h => h.1.1)
    · refine Program.Safe.bind (readDir_safe same same (fun d entered => ?_))
      exact absurd entered (absent d)
  | cons e entries ih =>
    rw [restoreEntries, Program.forEach, Program.bind_assoc]
    refine Program.Safe.bind ((restoreEntry_safe within.1).ends.mono (fun _ h => h) ?_)
    rintro (e' | _) u ⟨moved, reached⟩
    · exact moved
    · exact (ih (within.2 u reached) (Within.refl _ u)).mono (fun _ => moved.trans) (fun _ _ => moved.trans)

theorem makesWithin_prompts (t : LinkTree Bytes) : MakesWithin (promptsRoot repo) t repo promptsDir := by
  intro above name d short entered _
  have root : above = [] ∧ name = "prompts" := by
    cases above with
    | nil => simpa using List.cons_prefix_cons.mp short
    | cons first above =>
      have long := short.length_le
      simp [promptsDir] at long
  obtain ⟨rfl, rfl⟩ := root
  cases entered
  exact List.prefix_refl _

theorem restorePrompts_safe {promptsHash : Hash} (within : RestoresWithin P repo repoRoot objects promptsHash t) :
    (restorePrompts P repo repoRoot objects promptsHash).Safe True (Within (promptsRoot repo) t)
      (fun _ t' => Within (promptsRoot repo) t t') t := by
  refine Program.Safe.bind (onDisk_safe ((createDirAll_safe (makesWithin_prompts t)).ends.mono (fun _ h => h) ?_))
  rintro (e | _) u ⟨⟨made, _⟩, reached⟩
  · exact made
  · refine Program.Safe.bind (loadTree_safe made (fun _ => made) (fun tree found => ?_))
    exact (restoreEntries_safe (within u reached tree found)).mono (fun _ => made.trans) (fun _ _ => made.trans)

/- Links that do no harm: an entry may be one. -/

/-- No link is the prompts directory, on the way to an entry, or where its temporary file is
written. -/
structure Clear (repo : TreePath) (names : List String) (t : LinkTree Bytes) : Prop where
  root : t.NoLink (promptsRoot repo)
  dirs : ∀ name ∈ names, Plain repo t (entryDir name)
  temps : ∀ name ∈ names, t.NoLink (repo ++ (entryDir name ++ [tmpName (entryLast name)]))

theorem Clear.kept {names : List String} {u : LinkTree Bytes} (clear : Clear repo names t)
    (kept : NoNewLink t u) : Clear repo names u where
  root := kept _ clear.root
  dirs name mem q short proper := kept _ (clear.dirs name mem q short proper)
  temps name mem := kept _ (clear.temps name mem)

theorem unlink_noNewLink {u : LinkTree Bytes} {dir : List String} {name : String}
    (removed : t.unlink repo dir name = .ok u) : NoNewLink t u := by
  obtain ⟨d, _, gone⟩ := unlink_eq_ok removed
  exact NoNewLink.at (FileTree.removeFile_node? gone).2 nofun

theorem unlinked_noNewLink (name : String) : NoNewLink t (unlinked repo name t) := by
  unfold unlinked
  split
  · split
    · exact unlink_noNewLink ‹_›
    · exact NoNewLink.refl t
  · exact NoNewLink.refl t

omit [DecidableEq Hash] in
theorem writeBlobSafely_noNewLink {name : String} {bytes : Bytes} (dirs : Plain repo t (entryDir name))
    (temp : t.NoLink (repo ++ (entryDir name ++ [tmpName (entryLast name)]))) :
    (writeBlobSafely repo repoRoot name bytes : DiskProgram Hash Unit).Moves True NoNewLink (fun _ => True)
      (fun _ _ => True) t := by
  have step : ∀ {e : DaemonError Hash} {f : LinkTree Bytes → Except LinkFault (LinkTree Bytes)}
      {u : LinkTree Bytes}, (∀ v, f u = .ok v → NoNewLink u v) →
      (onDisk e (LinkTree.call f)).Moves True NoNewLink (fun _ => True) (fun _ _ => True) u := by
    intro e f u kept
    exact onDisk_call_safe (NoNewLink.refl u) (fun v done => ⟨kept v done, trivial⟩) ⟨NoNewLink.refl u, trivial⟩
  have rest : ∀ u, NoNewLink t u →
      (do
        onDisk (.context ("writing temp file " ++ shown repoRoot (shownTmp name)) .io)
          (LinkTree.call (fun t => t.writeFile repo (entryDir name) (tmpName (entryLast name)) bytes))
        onDisk (.context ("renaming " ++ shown repoRoot (shownTmp name) ++ " → " ++ shown repoRoot name) .io)
          (LinkTree.call (fun t => if namesDirectory name then .error .other
            else t.renameIn repo (entryDir name) (tmpName (entryLast name)) (entryLast name))) :
        DiskProgram Hash Unit).Moves True NoNewLink (fun _ => True) (fun _ _ => True) u := by
    intro u kept
    refine Program.Moves.bind NoNewLink.trans (step (fun v wrote => ?_)) (fun _ v more _ => step (fun w moved => ?_))
    · obtain ⟨l, _, _, nodes⟩ := writeFile_eq_ok wrote
      exact NoNewLink.at nodes nofun
    · split at moved
      · cases moved
      · obtain ⟨d, c, entered, held, nodes⟩ := renameIn_eq_ok moved
        have all := kept.trans more
        have there : d = repo ++ entryDir name :=
          enter_plain (fun q short proper => all _ (dirs q short proper)) entered
        -- what is renamed is no link
        intro p noLink target link
        rw [nodes p] at link
        split at link
        · rw [there, List.append_assoc] at held
          exact all _ temp target (held.trans link)
        · split at link
          · cases link
          · exact noLink target link
  refine Program.Moves.bind NoNewLink.trans (Program.Moves.still (NoNewLink.refl t) ?_) (fun link u kept _ => ?_)
  · exact (Program.Still.read _ _).mapError
  · cases link with
    | false => exact rest u kept
    | true =>
      exact Program.Moves.bind NoNewLink.trans (step (fun v removed => unlink_noNewLink removed))
        (fun _ v more _ => rest v (kept.trans more))

theorem restoreEntry_noNewLink {name : String} {r : TypedRef Hash} (dirs : Plain repo t (entryDir name))
    (temp : t.NoLink (repo ++ (entryDir name ++ [tmpName (entryLast name)]))) :
    (restoreEntry P repo repoRoot objects name r).Moves True NoNewLink (fun _ => True) (fun _ _ => True) t := by
  have still : ∀ {α : Type} {p : DiskProgram Hash α} {u : LinkTree Bytes}, p.Still →
      p.Moves True NoNewLink (fun _ => True) (fun _ _ => True) u :=
    fun h => Program.Moves.still (NoNewLink.refl _) h
  refine Program.Moves.bind NoNewLink.trans (still (Program.Still.ofExcept _)) (fun _ u kept _ => ?_)
  have parents : (createParents repo name : DiskProgram Hash Unit).Moves True NoNewLink (fun _ => True)
      (fun _ _ => True) u := by
    unfold createParents
    split
    · exact Program.Moves.fail (NoNewLink.refl u) trivial
    · exact Program.Moves.mapError (fun _ _ => trivial) (createDirAll_noNewLink (entryDir name) u)
  refine Program.Moves.bind NoNewLink.trans parents (fun _ v more _ => ?_)
  refine Program.Moves.bind NoNewLink.trans (still (Program.Still.read _ _)) (fun blob w moved _ => ?_)
  have all := (kept.trans more).trans moved
  exact writeBlobSafely_noNewLink (fun q short proper => all _ (dirs q short proper)) (all _ temp)

omit [DecidableEq Hash] in
theorem below_of_valid {name : String}
    (valid : (validateTreeEntryName name : Except (DaemonError Hash) Unit) = .ok ()) :
    promptsDir <+: entryDir name := by
  unfold validateTreeEntryName at valid
  split at valid
  · cases valid
  · rename_i named
    split at valid
    · rename_i normal
      have some_ : ∃ part, Component.normal part ∈ pathComponents name := by
        unfold pathComponents at normal ⊢
        split at normal
        · rename_i none
          exact absurd none (splitSlash_ne_nil name)
        · rename_i first rest _
          by_cases empty : first = ""
          · simp [empty, named, Component.isNormal] at normal
          · by_cases dot : first = "."
            · simp [dot, Component.isNormal] at normal
            · by_cases up : first = ".."
              · simp [up, Component.ofPart, Component.isNormal] at normal
              · exact ⟨first, by simp [empty, dot, up, Component.ofPart]⟩
      obtain ⟨part, mem⟩ := some_
      rw [entryDir, entryPath, List.dropLast_append_of_ne_nil]
      · exact List.prefix_append _ _
      · exact List.ne_nil_of_mem (List.mem_filterMap.mpr ⟨.normal part, mem, rfl⟩)
    · cases valid

theorem entryWithin_of_clear {names : List String} {name : String} {r : TypedRef Hash}
    (clear : Clear repo names t) (mem : name ∈ names)
    (valid : (validateTreeEntryName name : Except (DaemonError Hash) Unit) = .ok ()) :
    EntryWithin P repo objects name r t := by
  have below := below_of_valid valid
  have inside : ∀ more : List String, promptsRoot repo <+: repo ++ (entryDir name ++ more) :=
    fun more => (List.prefix_append_right_inj repo).mpr (below.trans (List.prefix_append _ _))
  constructor
  · intro above part d short entered missing
    have there : d = repo ++ above :=
      enter_plain (fun q hq => clear.dirs name mem q (hq.trans ((List.prefix_append _ _).trans short))) entered
    rw [there, List.append_assoc]
    -- both are prefixes of the path, and the prompts directory is its first name
    refine (List.prefix_append_right_inj repo).mpr (List.prefix_of_prefix_length_le below short ?_)
    simp [promptsDir]
  · intro blob _ _ _ d entered
    rw [enter_plain (clear.dirs name mem) entered]
    simpa using inside []
  · intro blob _ _ l located
    have kept : NoNewLink t (unlinked repo name t) := unlinked_noNewLink name
    have there : l = repo ++ (entryDir name ++ [tmpName (entryLast name)]) := by
      refine locate_plain (fun q short proper => kept _ ?_) located
      rcases List.prefix_concat_iff.mp short with rfl | short
      · exact clear.temps name mem
      · exact clear.dirs name mem q short proper
    rw [there]
    exact inside _

theorem entriesWithin_of_clear {names : List String} {entries : List (String × TypedRef Hash)}
    (clear : Clear repo names t) (named : ∀ e ∈ entries, e.1 ∈ names) :
    EntriesWithin P repo repoRoot objects entries t := by
  induction entries generalizing t with
  | nil => exact Or.inl clear.root
  | cons e entries ih =>
    have mem := named e List.mem_cons_self
    refine ⟨entryWithin_of_clear clear mem, fun u reached => ?_⟩
    have kept := Program.Safe.stopped (restoreEntry_noNewLink (clear.dirs _ mem) (clear.temps _ mem)) reached
    exact ih (clear.kept kept.1) (fun e' mem' => named e' (List.mem_cons_of_mem e mem'))

theorem restoresWithin_of_clear {promptsHash : Hash}
    (clear : ∀ u tree, get P (objects u) promptsHash = .ok (.tree tree) →
      Clear repo (tree.entries.entries.map Prod.fst) t) :
    RestoresWithin P repo repoRoot objects promptsHash t := by
  intro u reached tree found
  have kept := Program.Safe.stopped (createDirAll_noNewLink promptsDir t) reached
  exact entriesWithin_of_clear ((clear u tree found).kept kept.1)
    (fun e mem => List.mem_map_of_mem mem)

/-- Wherever `restore_prompts` is stopped, nothing outside of the prompts directory has changed, as
long as no link takes an entry, or the sweep, out of it when its turn comes. -/
theorem restorePrompts_stays {promptsHash : Hash}
    (within : RestoresWithin P repo repoRoot objects promptsHash t)
    (p : DiskProgram Hash Unit) (u : LinkTree Bytes)
    (reached : Program.Reaches (restorePrompts P repo repoRoot objects promptsHash, t) (p, u)) :
    Within (promptsRoot repo) t u := by
  have stopped := (restorePrompts_safe within).stopped reached
  cases outcome : p.result? with
  | none =>
    rw [outcome] at stopped
    exact stopped
  | some r =>
    rw [outcome] at stopped
    exact stopped

end

/- A tree with one prompt, on disks with a link beside it and in its place. -/

def onePrompt : Tree Bytes := ⟨BTreeMap.ofList [("system.md", ⟨.blob, [104, 105]⟩)]⟩

def onePromptFiles : Files := fun path =>
  let P := Platform.sample
  if path = pathFor P [104, 105] then some (P.encodeAll (P.toVec ((Object.blob ⟨[104, 105]⟩).toJson P)))
  else if path = pathFor P ((Object.tree onePrompt).hash P) then
    some (P.encodeAll (P.toVec ((Object.tree onePrompt).toJson P)))
  else none

def linkedDisk (name : String) : LinkTree Bytes :=
  LinkTree.ofNodes [(["out"], .dir), (["repo"], .dir), (["repo", "prompts"], .dir),
    (["repo", "prompts", name], .file (.link ⟨true, [.name "out", .name "victim"]⟩))]

theorem get_onePrompt : get Platform.sample onePromptFiles ((Object.tree onePrompt).hash Platform.sample) =
    .ok (.tree onePrompt) := by
  decide +kernel

theorem clear_linkedDisk : Clear ["repo"] (onePrompt.entries.entries.map Prod.fst) (linkedDisk "system.md") := by
  have names : onePrompt.entries.entries.map Prod.fst = ["system.md"] := by decide +kernel
  have root : (linkedDisk "system.md").NoLink ["repo", "prompts"] := by
    have dir : (linkedDisk "system.md").node? ["repo", "prompts"] = some .dir := by decide +kernel
    rw [LinkTree.NoLink, dir]
    exact nofun
  rw [names]
  constructor
  · exact root
  · intro name mem q short proper
    cases List.mem_singleton.mp mem
    have dir : entryDir "system.md" = [] ++ ["prompts"] := by decide +kernel
    rw [dir] at short
    rcases List.prefix_concat_iff.mp short with rfl | short
    · exact root
    · exact absurd (List.prefix_nil.mp short) proper
  · intro name mem
    cases List.mem_singleton.mp mem
    have free : (linkedDisk "system.md").node? (["repo"] ++ (entryDir "system.md" ++
        [tmpName (entryLast "system.md")])) = none := by decide +kernel
    rw [LinkTree.NoLink, free]
    exact nofun

/-- A link in place of the prompt is replaced. -/
theorem restorePrompts_stays_replaced : LinkTree.Within ["repo", "prompts"] (linkedDisk "system.md")
    ((restorePrompts Platform.sample ["repo"] "/repo" (fun _ => onePromptFiles)
      ((Object.tree onePrompt).hash Platform.sample)).run (linkedDisk "system.md")).2 := by
  have within : RestoresWithin Platform.sample ["repo"] "/repo" (fun _ => onePromptFiles)
      ((Object.tree onePrompt).hash Platform.sample) (linkedDisk "system.md") := by
    refine restoresWithin_of_clear (fun u tree found => ?_)
    cases get_onePrompt.symm.trans found
    exact clear_linkedDisk
  exact restorePrompts_stays within _ _ (Program.reaches_run _ _)

/-- Where the temporary file would be, a link is followed: the prompt is written to where it leads. -/
theorem restorePrompts_follows_link :
    ¬ ∀ (repo : TreePath) (objects : LinkTree Bytes → Files) (promptsHash : Bytes) (t u : LinkTree Bytes)
      (p : DiskProgram Bytes Unit),
      Program.Reaches (restorePrompts Platform.sample repo "/repo" objects promptsHash, t) (p, u) →
        LinkTree.Within (promptsRoot repo) t u := by
  intro stays
  have within := stays ["repo"] (fun _ => onePromptFiles) ((Object.tree onePrompt).hash Platform.sample)
    (linkedDisk "system.tmp") _ _ (Program.reaches_run _ _)
  have before : (linkedDisk "system.tmp").node? ["out", "victim"] = none := by decide +kernel
  have after : ((restorePrompts Platform.sample ["repo"] "/repo" (fun _ => onePromptFiles)
      ((Object.tree onePrompt).hash Platform.sample)).run (linkedDisk "system.tmp")).2.node? ["out", "victim"] =
        some (.file (.regular [104, 105])) := by decide +kernel
  have same := within ["out", "victim"] (by decide)
  rw [before, after] at same
  cases same

end Rollback.OnDisk

end GitAgentic
