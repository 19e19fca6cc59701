import GitAgentic.Daemon.State

/-! The files of the reverse migrations, `schema/<name>.down.sql` in the `.agentic`
directory, and the marker that stops a rollback. -/
namespace GitAgentic

namespace Migrate

/-- `str::lines` -/
def lines (cs : List Char) : List (List Char) :=
  let parts := cs.splitOn '\n'
  let chomp (line : List Char) := if line.getLast? = some '\r' then line.dropLast else line
  let last := parts.getLast?.getD []
  parts.dropLast.map chomp ++ (if last = [] then [] else [last])

def marker : String := "-- IRREVERSIBLE"

def marked : List (List Char) → Bool
  | [] => false
  | line :: rest =>
    let trimmed := trim line
    if trimmed = [] then marked rest else marker.toList.isPrefixOf trimmed

def isIrreversible (sql : String) : Bool := marked (lines sql.toList)

section

variable {Hash : Type}

def validateMigrationName (name : String) : Except (DaemonError Hash) Unit :=
  if name.toList.contains '/' ∨ name.toList.contains '\\' ∨ ['.', '.'] <:+: name.toList then
    .error (.text ("migration name " ++ debugText name ++ " contains path separators or '..' " ++
      "and would escape the schema directory — refusing to proceed"))
  else .ok ()

def checkIrreversible (name sql : String) (acceptDataLoss : Bool) : Except (DaemonError Hash) Unit :=
  if acceptDataLoss then .ok ()
  else if isIrreversible sql then
    .error (.text ("migration " ++ debugText name ++ " is marked -- IRREVERSIBLE and cannot be " ++
      "reversed automatically. Options:\n  1. Write a real reverse migration and remove the " ++
      "IRREVERSIBLE marker.\n  2. Re-run rollback with --accept-data-loss to execute the " ++
      ".down.sql as written, accepting that the reverse may not restore lost data.\n  3. Use " ++
      "the bounded-rollback path (ADR-0002 Decision 5): restore from the snapshot taken before " ++
      "this migration was applied. That path is not yet implemented (v1.1 work item)."))
  else .ok ()

def schemaDir : TreePath := ["schema"]

/-- A program over the `.agentic` directory. -/
abbrev SchemaProgram (Hash α : Type) := Program (FileTree TextFile) (DaemonError Hash) α

/-- A failed `exists` counts as absent. -/
def pathExists (path : TreePath) : SchemaProgram Hash Bool :=
  .op id (fun t => .done (.ok (t.node? path).isSome)) (.done (.ok false))

def loadStep (agenticDir : String) (acceptDataLoss : Bool) (name : String) :
    SchemaProgram Hash MigrationStep := do
  Program.ofExcept (validateMigrationName name)
  let path := schemaDir ++ [name ++ ".down.sql"]
  let shown := agenticDir ++ "/schema/" ++ name ++ ".down.sql"
  if ← pathExists path then
    let sql ← Program.read (fun t =>
      match t.file? path with
      | some (some text) => .ok text
      | _ => .error (.context ("reading " ++ shown) .io)) (.context ("reading " ++ shown) .io)
    Program.ofExcept (checkIrreversible name sql acceptDataLoss)
    return { name, sql }
  else Program.fail (.text ("reverse migration file " ++ shown ++ " is missing; cannot roll back " ++
    "without it. Add the file or mark it -- IRREVERSIBLE if the migration cannot be reversed."))

def loadEach (agenticDir : String) (acceptDataLoss : Bool) :
    List String → SchemaProgram Hash (List MigrationStep)
  | [] => return []
  | name :: names => do
    let step ← loadStep agenticDir acceptDataLoss name
    let steps ← loadEach agenticDir acceptDataLoss names
    return step :: steps

def loadSteps (agenticDir : String) (names : List String) (acceptDataLoss : Bool) :
    SchemaProgram Hash (List MigrationStep) :=
  if names = [] then return []
  else do
    if ← pathExists schemaDir then loadEach agenticDir acceptDataLoss names
    else Program.fail (.text ("schema directory " ++ agenticDir ++ "/schema does not exist; " ++
      "cannot run reverse migrations (create it and add the required .down.sql files)"))

theorem pathExists_still (path : TreePath) : (pathExists path : SchemaProgram Hash Bool).Still :=
  ⟨rfl, fun _ => trivial, trivial⟩

theorem loadStep_still (agenticDir : String) (acceptDataLoss : Bool) (name : String) :
    (loadStep agenticDir acceptDataLoss name : SchemaProgram Hash MigrationStep).Still := by
  refine Program.Still.bind trivial (fun _ => ?_)
  refine Program.Still.bind (pathExists_still _) (fun found => ?_)
  split
  · refine Program.Still.bind (Program.Still.read _ _) (fun sql => ?_)
    exact Program.Still.bind trivial (fun _ => trivial)
  · trivial

theorem loadEach_still (agenticDir : String) (acceptDataLoss : Bool) (names : List String) :
    (loadEach agenticDir acceptDataLoss names : SchemaProgram Hash _).Still := by
  induction names with
  | nil => trivial
  | cons name names ih =>
    refine Program.Still.bind (loadStep_still _ _ _) (fun step => ?_)
    exact Program.Still.bind ih (fun _ => trivial)

theorem loadSteps_still (agenticDir : String) (names : List String) (acceptDataLoss : Bool) :
    (loadSteps agenticDir names acceptDataLoss : SchemaProgram Hash _).Still := by
  unfold loadSteps
  split
  · trivial
  · refine Program.Still.bind (pathExists_still _) (fun found => ?_)
    split
    · exact loadEach_still _ _ _
    · trivial

end

end Migrate

end GitAgentic
