import GitAgentic.Core.StagingRun

/-! The difference of two commits, dimension by dimension. Trees are compared name by name,
the model by its text. -/
namespace GitAgentic

/- `String::from_utf8_lossy` -/

def continues (b : UInt8) : Bool := 0x80 ≤ b && b < 0xC0

def utf8Width (lead : UInt8) : Nat :=
  if lead < 0x80 then 1
  else if 0xC2 ≤ lead && lead < 0xE0 then 2
  else if 0xE0 ≤ lead && lead < 0xF0 then 3
  else if 0xF0 ≤ lead && lead < 0xF5 then 4
  else 0

/-- Overlong forms, surrogates and values from `0x110000` on show at the second byte. -/
def mayFollow (lead second : UInt8) : Bool :=
  if lead = 0xE0 then 0xA0 ≤ second && second < 0xC0
  else if lead = 0xED then 0x80 ≤ second && second < 0xA0
  else if lead = 0xF0 then 0x90 ≤ second && second < 0xC0
  else if lead = 0xF4 then 0x80 ≤ second && second < 0x90
  else continues second

def sequenceTail (lead : UInt8) : Bytes → Nat
  | [] => 0
  | second :: rest =>
    if 2 ≤ utf8Width lead ∧ mayFollow lead second then
      ((rest.take (utf8Width lead - 2)).takeWhile continues).length + 1
    else 0

def sequenceChar (lead : UInt8) (tail : Bytes) : Char :=
  let base := match utf8Width lead with
    | 2 => 0xC0
    | 3 => 0xE0
    | 4 => 0xF0
    | _ => 0
  Char.ofNat (tail.foldl (fun value b => value * 64 + (b.toNat - 0x80)) (lead.toNat - base))

/-- A sequence that is cut off or that no byte leads becomes one replacement character. -/
def replaceInvalid : Nat → Bytes → List Char
  | 0, _ => []
  | _, [] => []
  | n + 1, lead :: rest =>
    let tail := sequenceTail lead rest
    (if tail + 1 = utf8Width lead then sequenceChar lead (rest.take tail) else '\uFFFD') ::
      replaceInvalid n (rest.drop tail)

def fromUtf8Lossy (bytes : Bytes) : String :=
  match fromUtf8 bytes with
  | some s => s
  | none => String.ofList (replaceInvalid bytes.length bytes)

example : replaceInvalid 6 [0x61, 0xE2, 0x82, 0xC3, 0xA9, 0x62] = ['a', '\uFFFD', 'é', 'b'] := by
  decide

structure StringChange where
  from_ : Option String
  to_ : Option String
  deriving DecidableEq

structure HashChange (Hash : Type) where
  from_ : Option Hash
  to_ : Option Hash
  deriving DecidableEq

structure TreeEntry (Hash : Type) where
  name : String
  hash : Hash
  deriving DecidableEq

structure TreeModification (Hash : Type) where
  name : String
  from_ : Hash
  to_ : Hash
  deriving DecidableEq

structure TreeDiff (Hash : Type) where
  added : List (TreeEntry Hash) := []
  removed : List (TreeEntry Hash) := []
  modified : List (TreeModification Hash) := []
  deriving DecidableEq

def TreeDiff.isEmpty {Hash : Type} (d : TreeDiff Hash) : Bool :=
  d.added.isEmpty && d.removed.isEmpty && d.modified.isEmpty

structure CommitDiff (Hash : Type) where
  from_ : Hash
  to_ : Hash
  codeSha : Option StringChange
  prompts : Option (TreeDiff Hash)
  tools : Option (TreeDiff Hash)
  model : Option StringChange
  memorySnapshot : Option (HashChange Hash)
  schemaVersion : Option StringChange
  deriving DecidableEq

/-- Every dimension is unchanged. -/
def CommitDiff.isEmpty {Hash : Type} (d : CommitDiff Hash) : Bool :=
  d.codeSha.isNone && d.prompts.isNone && d.tools.isNone && d.model.isNone &&
    d.memorySnapshot.isNone && d.schemaVersion.isNone

namespace Diff

variable {Hash : Type} [DecidableEq Hash]

/- The store, seen through its reads. -/
variable (store : Hash → Except (Error Hash) (Object Hash))

def loadCommit (hash : Hash) : Except (Error Hash) (Commit Hash) := do
  match ← store hash with
  | .commit c => return c
  | other => throw (.kindMismatch .commit other.kind)

def loadTree (hash : Hash) : Except (Error Hash) (Tree Hash) := do
  match ← store hash with
  | .tree t => return t
  | other => throw (.kindMismatch .tree other.kind)

def loadBlob (hash : Hash) : Except (Error Hash) Blob := do
  match ← store hash with
  | .blob b => return b
  | other => throw (.kindMismatch .blob other.kind)

def stringChange (a b : Option String) : Option StringChange :=
  if a = b then none else some { from_ := a, to_ := b }

def hashChange (a b : Option Hash) : Option (HashChange Hash) :=
  if a = b then none else some { from_ := a, to_ := b }

def treeEntries : Option Hash → Except (Error Hash) (BTreeMap String (TypedRef Hash))
  | none => return BTreeMap.empty
  | some h => return (← loadTree store h).entries

def allNames (a b : BTreeMap String (TypedRef Hash)) : List String :=
  (BTreeMap.ofList ((a.keys ++ b.keys).map (fun name => (name, ())))).keys

def diffName (a b : BTreeMap String (TypedRef Hash)) (d : TreeDiff Hash) (name : String) :
    TreeDiff Hash :=
  match a.get? name, b.get? name with
  | none, some bRef => { d with added := d.added ++ [{ name, hash := bRef.hash }] }
  | some aRef, none => { d with removed := d.removed ++ [{ name, hash := aRef.hash }] }
  | some aRef, some bRef =>
    if aRef.hash ≠ bRef.hash then
      { d with modified := d.modified ++ [{ name, from_ := aRef.hash, to_ := bRef.hash }] }
    else d
  | none, none => d

def diffEntries (a b : BTreeMap String (TypedRef Hash)) : TreeDiff Hash :=
  (allNames a b).foldl (diffName a b) {}

def diffTree (a b : Option Hash) : Except (Error Hash) (Option (TreeDiff Hash)) := do
  if a = b then return none
  else
    let aEntries ← treeEntries store a
    let bEntries ← treeEntries store b
    let d := diffEntries aEntries bEntries
    if d.isEmpty then return none else return some d

def modelText : Option Hash → Except (Error Hash) (Option String)
  | none => return none
  | some h => return some (fromUtf8Lossy (← loadBlob store h).bytes)

def diffModelBlob (a b : Option Hash) : Except (Error Hash) (Option StringChange) := do
  if a = b then return none
  else
    let aStr ← modelText store a
    let bStr ← modelText store b
    if aStr = bStr then return none else return some { from_ := aStr, to_ := bStr }

def diff (from_ to_ : Hash) : Except (Error Hash) (CommitDiff Hash) := do
  let a ← loadCommit store from_
  let b ← loadCommit store to_
  return {
    from_, to_
    codeSha := stringChange a.codeSha b.codeSha
    prompts := ← diffTree store a.prompts b.prompts
    tools := ← diffTree store a.tools b.tools
    model := ← diffModelBlob store a.model b.model
    memorySnapshot := hashChange a.memorySnapshot b.memorySnapshot
    schemaVersion := stringChange a.schemaVersion b.schemaVersion }

end Diff

end GitAgentic
