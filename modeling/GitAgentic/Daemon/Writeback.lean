import GitAgentic.Daemon.State

/-! Reading a commit's objects back, and writing its prompts to the working directory:
each file through a temporary sibling, then everything else below `prompts` goes. -/
namespace GitAgentic

def ObjectKind.debug : ObjectKind → String
  | .blob => "Blob"
  | .tree => "Tree"
  | .segment => "Segment"
  | .commit => "Commit"

namespace Rollback

/- Readers of the object store. -/

section

variable {Hash M : Type} [DecidableEq Hash] (P : Platform Hash)

def unexpectedKind (expected : String) (hash : Hash) (actual : ObjectKind) : DaemonError Hash :=
  .text ("expected " ++ expected ++ " at " ++ P.toHex hash ++ ", got " ++ actual.debug)

def loadCommit (hash : Hash) : DaemonProgram Hash M (Commit Hash) := do
  match ← readObjects (fun files => get P files hash) with
  | .commit c => return c
  | other => Program.fail (unexpectedKind P "commit" hash other.kind)

def loadTree (hash : Hash) : DaemonProgram Hash M (Tree Hash) := do
  match ← readObjects (fun files => get P files hash) with
  | .tree t => return t
  | other => Program.fail (unexpectedKind P "tree" hash other.kind)

def loadBlob (hash : Hash) : DaemonProgram Hash M Blob := do
  match ← readObjects (fun files => get P files hash) with
  | .blob b => return b
  | other => Program.fail (unexpectedKind P "blob" hash other.kind)

def loadManifest (hash : Hash) : DaemonProgram Hash M (SegmentManifest Hash) := do
  let bytes ← readObjects (fun files => getRaw P files hash)
  withContext ("decoding manifest " ++ P.toHex hash) (Program.ofExcept
    ((SegmentManifest.fromCanonicalBytes P bytes).mapError .manifest))

def treeToMap (hash : Hash) : DaemonProgram Hash M (BTreeMap String Bytes) := do
  let tree ← loadTree P hash
  let rec collect : List (String × TypedRef Hash) → BTreeMap String Bytes →
      DaemonProgram Hash M (BTreeMap String Bytes)
    | [], out => return out
    | (name, r) :: rest, out =>
      if r.kind ≠ .blob then
        Program.fail (.text ("non-blob entry " ++ name ++ " in tree " ++ P.toHex hash))
      else do
        let blob ← loadBlob P r.hash
        collect rest (out.insert name blob.bytes)
  collect tree.entries.entries BTreeMap.empty

def readTextBlobs : Option Hash → DaemonProgram Hash M (BTreeMap String Bytes)
  | none => return BTreeMap.empty
  | some hash => treeToMap P hash

def readModelText (target : Commit Hash) : DaemonProgram Hash M (Option String) :=
  match target.model with
  | none => return none
  | some hash => do
    let blob ← loadBlob P hash
    match fromUtf8 blob.bytes with
    | some text => return some text
    | none => Program.fail (.context ("model blob at " ++ P.toHex hash ++ " contains invalid UTF-8")
        (.text "invalid utf-8 sequence"))

end

/- The working directory. -/

abbrev WorkProgram (Hash α : Type) := Program (FileTree Bytes) (DaemonError Hash) α

def promptsDir : TreePath := ["prompts"]

/-- Where the name leads, once empty and `.` parts are passed over. -/
def entryPath (name : String) : TreePath :=
  promptsDir ++ (pathComponents name).filterMap (fun c => match c with
    | .normal part => some part
    | _ => none)

/-- A name that ends in `/` or `/.` stands for a directory. -/
def namesDirectory (name : String) : Bool :=
  match (splitSlash name).getLast? with
  | some last => last = "" || last = "."
  | none => false

def hasNul (name : String) : Bool := name.toList.any (fun c => c.toNat = 0)

def shownTmp (name : String) : String :=
  let parts := ((splitSlash name).reverse.dropWhile (fun p => p = "" || p = ".")).reverse
  joinSlash (withTmp parts)

section

variable {Hash : Type} (repoRoot : String)

def validateTreeEntryName (name : String) : Except (DaemonError Hash) Unit :=
  if name = "" then .error (.text "tree entry has empty name")
  else if (pathComponents name).all Component.isNormal then .ok ()
  else .error (.text ("tree entry name " ++ debugText name ++ " contains an unsafe path " ++
    "component; only relative names without '..' or absolute prefixes are allowed"))

def shown (name : String) : String := repoRoot ++ "/prompts/" ++ name

/-- The check for a symbolic link, then the temporary file, then the rename. -/
def writeBlobSafely (name : String) (bytes : Bytes) : WorkProgram Hash Unit := do
  let path := entryPath name
  let checking := "checking for symlink at " ++ shown repoRoot name ++ " before prompt write"
  Program.read (fun t =>
    if hasNul name ∨ (namesDirectory name ∧ (t.file? path).isSome) then
      .error (.context checking .io)
    else .ok ()) (.context checking .io)
  FileTree.perform (.context ("writing temp file " ++ shown repoRoot (shownTmp name)) .io)
    (fun t => t.write (withTmp path) bytes)
  FileTree.perform (.context ("renaming " ++ shown repoRoot (shownTmp name) ++ " → " ++
      shown repoRoot name) .io)
    (fun t => if namesDirectory name then none else t.rename (withTmp path) path)

def createParents (name : String) : WorkProgram Hash Unit :=
  let above := (entryPath name).dropLast
  if above.any hasNul then Program.fail .io else FileTree.createDirAll .io [] above

def readDir (here : TreePath) : WorkProgram Hash (List (String × TreeNode Bytes)) :=
  Program.read (fun t => if t.isDir here then .ok (t.readDir here) else .error .io) .io

/-- A directory that cannot be removed is logged only. -/
def removeIfEmpty (root path : TreePath) : WorkProgram Hash Unit := do
  if path = root then return ()
  else
    let left ← readDir path
    if left = [] then
      let _ ← (FileTree.perform (.io : DaemonError Hash) (fun t : FileTree Bytes =>
        t.removeDir path) : WorkProgram Hash Unit).attempt
      return ()
    else return ()

def removeOrphan (wanted : List TreePath) (path : TreePath) : WorkProgram Hash Unit :=
  if path ∈ wanted then return ()
  else FileTree.perform (.context ("removing orphan prompt " ++ repoRoot ++ "/" ++ joinSlash path) .io)
    (fun t => t.removeFile path)

/-- Below a directory: subdirectories are swept and go when empty, files go unless they
are wanted. -/
def sweepOrphans (root : TreePath) (wanted : List TreePath) : Nat → TreePath → WorkProgram Hash Unit
  | 0, _ => return ()
  | fuel + 1, here => do
    let entries ← readDir here
    Program.forEach (fun e => match e.2 with
      | .dir => do
        sweepOrphans root wanted fuel (here ++ [e.1])
        removeIfEmpty root (here ++ [e.1])
      | .file _ => removeOrphan repoRoot wanted (here ++ [e.1])) entries

def sweep (wanted : List TreePath) : WorkProgram Hash Unit := do
  let depth ← Program.read (fun t => .ok t.depth) .io
  sweepOrphans repoRoot promptsDir wanted (depth + 1) promptsDir

variable {M : Type} [DecidableEq Hash] (P : Platform Hash)

def restoreEntry (name : String) (r : TypedRef Hash) : DaemonProgram Hash M Unit := do
  Program.ofExcept (validateTreeEntryName name)
  onWork (createParents name)
  let blob ← loadBlob P r.hash
  onWork (writeBlobSafely repoRoot name blob.bytes)

def restorePrompts (promptsHash : Hash) : DaemonProgram Hash M Unit := do
  onWork (FileTree.createDirAll .io [] promptsDir)
  let tree ← loadTree P promptsHash
  Program.forEach (fun e => restoreEntry repoRoot P e.1 e.2) tree.entries.entries
  onWork (sweep repoRoot (tree.entries.entries.map (fun e => entryPath e.1)))

end

end Rollback

end GitAgentic
