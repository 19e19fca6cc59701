import GitAgentic.Core.Paths
import GitAgentic.Core.Store

/-! Branch refs and `HEAD`: small text files in the `.agentic` directory, each written
to a temporary file that is renamed over it. -/
namespace GitAgentic

/-- The content of a text file, `none` where the bytes are not UTF-8. -/
abbrev TextFile := Option String

inductive HeadRef (Hash : Type) where
  | branch (name : String)
  | detached (hash : Hash)
  deriving DecidableEq

def componentRejection (component : String) : Option String :=
  if component = "" then some "empty path component (leading, trailing, or doubled '/')"
  else if component = "." ∨ component = ".." then
    some "'.' and '..' path components are not allowed"
  else if endsWith ".tmp" component then
    some "components ending in '.tmp' collide with atomic-write temp files"
  else none

def branchRejection (name : String) : Option String :=
  if name = "" then some "name is empty"
  else if name = "HEAD" then some "'HEAD' is reserved"
  else if name.toList.contains '\\' then some "backslashes are not allowed"
  else if name.toList.any isControl then some "control characters are not allowed"
  else match (splitSlash name).findSome? componentRejection with
    | some reason => some reason
    | none =>
      if (pathComponents name).any (fun c => !c.isNormal) then some "not a plain relative path"
      else none

def heads : TreePath := ["refs", "heads"]

def headPath : TreePath := ["HEAD"]

/-- What `HEAD` and every branch held when the snapshot was taken. -/
structure RefsSnapshot (Hash : Type) where
  head : Option (HeadRef Hash)
  branches : BTreeMap String Hash

namespace Refs

variable {Hash : Type}

def validateBranchName (name : String) : Except (Error Hash) Unit :=
  match branchRejection name with
  | some reason => .error (.invalidBranchName name reason)
  | none => .ok ()

def branchPath (name : String) : Except (Error Hash) TreePath := do
  validateBranchName name
  return heads ++ splitSlash name

def refPrefix : String := "ref: refs/heads/"

variable (P : Platform Hash)

def hexValue (c : Char) : Option Nat :=
  let n := c.toNat
  if 48 ≤ n ∧ n ≤ 57 then some (n - 48)
  else if 97 ≤ n ∧ n ≤ 102 then some (n - 87)
  else if 65 ≤ n ∧ n ≤ 70 then some (n - 55)
  else none

def hexDecode : List Char → Option Bytes
  | [] => some []
  | [_] => none
  | a :: b :: rest => do
    let high ← hexValue a
    let low ← hexValue b
    let bytes ← hexDecode rest
    some (UInt8.ofNat (16 * high + low) :: bytes)

/-- `ParseHashError`; the length is looked at first. -/
def parseHashError (cs : List Char) : String :=
  let size := (utf8 cs).length
  if size ≠ 64 then "hash must be 64 hex characters, got " ++ String.ofList (Nat.toDigits 10 size)
  else "hash contains non-hex characters"

/-- `Hash::from_str`; digests of another length are for the platform to refuse. -/
def parseHash (cs : List Char) : Except (Error Hash) Hash :=
  match (hexDecode cs).bind P.fromBytes with
  | some h => .ok h
  | none => .error (.other (parseHashError cs))

theorem hexValue_hexDigit : ∀ n < 16, hexValue (Json.hexDigit n) = some n := by decide

theorem hexDecode_flatMap (bs : Bytes) : hexDecode (bs.flatMap Platform.hexByte) = some bs := by
  induction bs with
  | nil => rfl
  | cons b bs ih =>
    have hb := b.toNat_lt
    have whole : 16 * (b.toNat / 16) + b.toNat % 16 = b.toNat := Nat.div_add_mod _ _
    simp only [List.flatMap_cons, Platform.hexByte, List.cons_append, List.nil_append, hexDecode,
      hexValue_hexDigit _ (by omega : b.toNat / 16 < 16),
      hexValue_hexDigit _ (by omega : b.toNat % 16 < 16), ih, Option.bind_eq_bind,
      Option.bind_some, whole, UInt8.ofNat_toNat]

theorem hex_not_whitespace : ∀ n < 16, isWhitespace (Json.hexDigit n) = false := by decide

theorem parseHash_line (h : Hash) : parseHash P (trim (P.toHex h ++ "\n").toList) = .ok h := by
  have plain : ∀ c ∈ P.hex h, isWhitespace c = false := by
    intro c hc
    obtain ⟨b, _, hb⟩ := List.mem_flatMap.mp hc
    have size := b.toNat_lt
    simp only [Platform.hexByte, List.mem_cons, List.not_mem_nil, or_false] at hb
    rcases hb with rfl | rfl
    · exact hex_not_whitespace _ (by omega)
    · exact hex_not_whitespace _ (by omega)
  have chars : (P.toHex h ++ "\n").toList = P.hex h ++ ['\n'] := by
    simp [Platform.toHex]
  rw [chars, trim_newline plain, parseHash, Platform.hex, hexDecode_flatMap, Option.bind_some,
    P.fromBytes_asBytes]

/- A program over the `.agentic` directory. -/
abbrev RefsProgram (Hash α : Type) := Program (FileTree TextFile) (Error Hash) α

/-- `Refs::open` -/
def openRefs : RefsProgram Hash Unit := FileTree.createDirAll .io [] heads

def writeAtomic (path : TreePath) (contents : String) : RefsProgram Hash Unit := do
  FileTree.createDirAll .io [] path.dropLast
  FileTree.perform .io (fun t => t.write (withTmp path) (some contents))
  FileTree.perform .io (fun t => t.rename (withTmp path) path)

def writeHeadSymbolic (branch : String) : RefsProgram Hash Unit := do
  Program.ofExcept (validateBranchName branch)
  writeAtomic headPath (refPrefix ++ branch ++ "\n")

def writeBranch (branch : String) (hash : Hash) : RefsProgram Hash Unit := do
  let path ← Program.ofExcept (branchPath branch)
  FileTree.createDirAll .io [] path.dropLast
  writeAtomic path (P.toHex hash ++ "\n")

/-- `read_to_string` -/
def readToString (t : FileTree TextFile) (path : TreePath) : Except (Error Hash) String :=
  match t.file? path with
  | some (some text) => .ok text
  | _ => .error .io

/-- A failed `exists` counts as absent. -/
def pathExists (path : TreePath) : RefsProgram Hash Bool :=
  .op id (fun t => .done (.ok (t.node? path).isSome)) (.done (.ok false))

def readHead : RefsProgram Hash (Option (HeadRef Hash)) := do
  if ← pathExists headPath then
    let raw ← Program.read (fun t => readToString t headPath) .io
    let trimmed := trim raw.toList
    if refPrefix.toList.isPrefixOf trimmed then
      return some (.branch (String.ofList (trimmed.drop refPrefix.length)))
    else
      return some (.detached (← Program.ofExcept (parseHash P trimmed)))
  else return none

def readBranch (branch : String) : RefsProgram Hash (Option Hash) := do
  let path ← Program.ofExcept (branchPath branch)
  if ← pathExists path then
    let raw ← Program.read (fun t => readToString t path) .io
    return some (← Program.ofExcept (parseHash P (trim raw.toList)))
  else return none

def collectBranchFiles (t : FileTree TextFile) : List TreePath :=
  t.walk (fun name => !endsWith ".tmp" name) (t.depth + 1) heads

/-- The path relative to `refs/heads`, with `/` for every separator. -/
def branchName (path : TreePath) : String :=
  String.ofList ((joinSlash (path.drop heads.length)).toList.map (fun c => if c = '\\' then '/' else c))

def listBranches : RefsProgram Hash (List String) := do
  if ← pathExists heads then
    Program.read (fun t =>
      if t.isDir heads then .ok ((collectBranchFiles t).map branchName) else .error .io) .io
  else return []

def isHexHash (name : String) : Bool :=
  name.utf8ByteSize == 64 && name.toList.all (fun c => (hexValue c).isSome)

def resolve (name : String) : RefsProgram Hash (Option Hash) := do
  if name = "HEAD" then
    match ← readHead P with
    | none => return none
    | some (.detached h) => return some h
    | some (.branch b) => readBranch P b
  else if isHexHash name then
    return some (← Program.ofExcept (parseHash P name.toList))
  else readBranch P name

def readBranches : List String → RefsProgram Hash (BTreeMap String Hash)
  | [] => return BTreeMap.empty
  | name :: names => do
    let found ← readBranch P name
    let others ← readBranches names
    match found with
    | some hash => return others.insert name hash
    | none => return others

def snapshot : RefsProgram Hash (RefsSnapshot Hash) := do
  let head ← readHead P
  let branches ← readBranches P (← listBranches)
  return { head, branches }

end Refs

def RefsSnapshot.resolve {Hash : Type} (P : Platform Hash) (s : RefsSnapshot Hash) (name : String) :
    Except (Error Hash) (Option Hash) :=
  if name = "HEAD" then
    match s.head with
    | none => .ok none
    | some (.detached h) => .ok (some h)
    | some (.branch b) => .ok (s.branches.get? b)
  else if Refs.isHexHash name then (Refs.parseHash P name.toList).map some
  else .ok (s.branches.get? name)

end GitAgentic
