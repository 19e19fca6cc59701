import GitAgentic.Core.Diff
import GitAgentic.Daemon.Dispatch

/-! The reply to a diff: both sides are looked up in a frozen view of the refs, and what
changed is told by name. -/
namespace GitAgentic

structure DiffOutput where
  from_ : String
  to_ : String
  prompts : List String
  tools : List String
  modelChanged : Bool
  memorySummary : String
  schemaSummary : String
  deriving DecidableEq

section

variable {Hash : Type}

def renderTree : Option (TreeDiff Hash) → List String
  | none => []
  | some td =>
    td.added.map (fun e => "+ " ++ e.name) ++ td.removed.map (fun e => "- " ++ e.name) ++
      td.modified.map (fun m => "~ " ++ m.name)

def schemaSummary : Option StringChange → String
  | none => ""
  | some sc => "schema_version " ++ sc.from_.getD "(none)" ++ " → " ++ sc.to_.getD "(none)"

variable (P : Platform Hash)

def memorySummary : Option (HashChange Hash) → String
  | none => ""
  | some ch =>
    match ch.from_, ch.to_ with
    | none, some t => "memory snapshot added → " ++ P.short t
    | some f, none => "memory snapshot removed (was " ++ P.short f ++ ")"
    | some f, some t => "memory snapshot " ++ P.short f ++ " → " ++ P.short t
    | none, none => ""

def lookUp (snapshot : RefsSnapshot Hash) (name : String) : Except (DaemonError Hash) Hash :=
  match snapshot.resolve P name with
  | .error e => .error (.core e)
  | .ok none => .error (.text ("ref not found: " ++ name))
  | .ok (some hash) => .ok hash

def handleDiff [DecidableEq Hash] (files : Files) (snapshot : RefsSnapshot Hash)
    (source target : String) : Except (DaemonError Hash) DiffOutput := do
  let fromHash ← lookUp P snapshot source
  let toHash ← lookUp P snapshot target
  let d ← (Diff.diff (get P files) fromHash toHash).mapError .core
  return {
    from_ := P.toHex fromHash
    to_ := P.toHex toHash
    prompts := renderTree d.prompts
    tools := renderTree d.tools
    modelChanged := d.model.isSome
    memorySummary := memorySummary P d.memorySnapshot
    schemaSummary := schemaSummary d.schemaVersion }

end

end GitAgentic
