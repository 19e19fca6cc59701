import GitAgentic.Data.FileTree
import GitAgentic.Json.Value

/-! Path strings: what a name splits into, and the temporary name beside a file. -/
namespace GitAgentic

def isControl (c : Char) : Bool := c.toNat ≤ 0x1f || (0x7f ≤ c.toNat && c.toNat ≤ 0x9f)

def isWhitespace (c : Char) : Bool :=
  let n := c.toNat
  (9 ≤ n && n ≤ 13) || n == 0x20 || n == 0x85 || n == 0xa0 || n == 0x1680 ||
    (0x2000 ≤ n && n ≤ 0x200a) || n == 0x2028 || n == 0x2029 || n == 0x202f || n == 0x205f ||
    n == 0x3000

def trim (cs : List Char) : List Char :=
  ((cs.dropWhile isWhitespace).reverse.dropWhile isWhitespace).reverse

def endsWith (suffix : String) (s : String) : Bool := suffix.toList.isSuffixOf s.toList

/-- `split('/')` -/
def splitSlash (name : String) : List String := (name.toList.splitOn '/').map String.ofList

inductive Component where
  | rootDir
  | curDir
  | parentDir
  | normal (name : String)
  deriving DecidableEq

def Component.isNormal : Component → Bool
  | .normal _ => true
  | _ => false

/-- A part between two slashes; empty and `.` parts are passed over. -/
def Component.ofPart (part : String) : Option Component :=
  if part = "" ∨ part = "." then none
  else if part = ".." then some .parentDir
  else some (.normal part)

/-- `Path::new(name).components()` -/
def pathComponents (name : String) : List Component :=
  match splitSlash name with
  | [] => []
  | first :: rest =>
    let start :=
      if first = "" then (if name = "" then [] else [.rootDir])
      else if first = "." then [.curDir]
      else (Component.ofPart first).toList
    start ++ rest.filterMap Component.ofPart

def fileStem (name : List Char) : List Char :=
  match name.reverse.dropWhile (· ≠ '.') with
  | [] => name
  | _ :: before => if before = [] then name else before.reverse

def tmpName (name : String) : String := String.ofList (fileStem name.toList ++ ".tmp".toList)

/-- `path.with_extension("tmp")` -/
def withTmp (path : TreePath) : TreePath := path.dropLast ++ [tmpName (path.getLast?.getD "")]

theorem endsWith_tmpName (name : String) : endsWith ".tmp" (tmpName name) = true := by
  have whole : (tmpName name).toList = fileStem name.toList ++ ".tmp".toList :=
    String.toList_ofList
  rw [endsWith, List.isSuffixOf_iff_suffix, whole]
  exact List.suffix_append _ _

theorem splitSlash_ne_nil (name : String) : splitSlash name ≠ [] := by
  simp [splitSlash, List.splitOn_ne_nil]

def joinSlash (parts : List String) : String :=
  String.ofList (['/'].intercalate (parts.map String.toList))

theorem joinSlash_splitSlash (name : String) : joinSlash (splitSlash name) = name := by
  have chars : ((name.toList.splitOn '/').map String.ofList).map String.toList =
      name.toList.splitOn '/' := by
    rw [List.map_map]
    exact List.map_id'' (fun cs => String.toList_ofList) _
  rw [splitSlash, joinSlash, chars, List.intercalate_splitOn, String.ofList_toList]

theorem splitSlash_injective : Function.Injective splitSlash := by
  intro a b same
  rw [← joinSlash_splitSlash a, same, joinSlash_splitSlash]

theorem splitSlash_joinSlash {parts : List String} (proper : parts ≠ [])
    (plain : ∀ part ∈ parts, '/' ∉ part.toList) : splitSlash (joinSlash parts) = parts := by
  have chars : (parts.map String.toList).map String.ofList = parts := by
    rw [List.map_map]
    exact List.map_id'' (fun part => String.ofList_toList) _
  rw [joinSlash, splitSlash, String.toList_ofList, List.splitOn_intercalate, chars]
  · exact List.forall_mem_map.mpr plain
  · exact fun none => proper (List.map_eq_nil_iff.mp none)

theorem trim_eq_self {cs : List Char} (h : ∀ c ∈ cs, isWhitespace c = false) : trim cs = cs := by
  have first : cs.dropWhile isWhitespace = cs := by
    cases cs with
    | nil => rfl
    | cons c cs => rw [List.dropWhile_cons_of_neg (by simp [h c])]
  rw [trim, first]
  have last : cs.reverse.dropWhile isWhitespace = cs.reverse := by
    cases hr : cs.reverse with
    | nil => rfl
    | cons c rest =>
      have mem : c ∈ cs := by
        rw [← List.mem_reverse, hr]
        exact List.mem_cons_self
      rw [List.dropWhile_cons_of_neg (by simp [h c mem])]
  rw [last, List.reverse_reverse]

theorem trim_newline {cs : List Char} (h : ∀ c ∈ cs, isWhitespace c = false) :
    trim (cs ++ ['\n']) = cs := by
  cases cs with
  | nil => rfl
  | cons c cs =>
    have first : (c :: cs ++ ['\n']).dropWhile isWhitespace = c :: cs ++ ['\n'] := by
      rw [List.cons_append, List.dropWhile_cons_of_neg (by simp [h c])]
    have last : (c :: cs ++ ['\n']).reverse.dropWhile isWhitespace =
        (c :: cs).reverse.dropWhile isWhitespace := by
      rw [List.reverse_append]
      rfl
    rw [trim, first, last]
    have whole := trim_eq_self h
    rw [trim, List.dropWhile_cons_of_neg (by simp [h c])] at whole
    exact whole

end GitAgentic
