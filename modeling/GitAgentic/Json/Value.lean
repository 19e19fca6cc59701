import Mathlib

/-! JSON documents as trees, and their compact text. Members keep the order in
which they are written; repeated names are possible in a document. Floating
point literals are carried as bits, and their text is a parameter. -/
namespace GitAgentic

abbrev Bytes := List UInt8

/-- `negInt m` is the 64-bit integer `-(m + 1)`, so an integer has one form only. -/
inductive Number where
  | posInt (n : UInt64)
  | negInt (m : Fin (2 ^ 63))
  | float (bits : UInt64)
  deriving DecidableEq, Repr

inductive Json where
  | null
  | bool (b : Bool)
  | number (n : Number)
  | string (s : String)
  | array (xs : List Json)
  | object (ms : List (String × Json))
  deriving Inhabited

namespace Json

mutual

def decEq : (a b : Json) → Decidable (a = b)
  | .null, .null => isTrue rfl
  | .bool a, .bool b => if h : a = b then isTrue (by rw [h]) else isFalse (by simpa using h)
  | .number a, .number b => if h : a = b then isTrue (by rw [h]) else isFalse (by simpa using h)
  | .string a, .string b => if h : a = b then isTrue (by rw [h]) else isFalse (by simpa using h)
  | .array as, .array bs =>
    match decEqElems as bs with
    | isTrue h => isTrue (by rw [h])
    | isFalse h => isFalse (by simpa using h)
  | .object as, .object bs =>
    match decEqMembers as bs with
    | isTrue h => isTrue (by rw [h])
    | isFalse h => isFalse (by simpa using h)
  | .null, .bool _ | .null, .number _ | .null, .string _ | .null, .array _ | .null, .object _
  | .bool _, .null | .bool _, .number _ | .bool _, .string _ | .bool _, .array _
  | .bool _, .object _
  | .number _, .null | .number _, .bool _ | .number _, .string _ | .number _, .array _
  | .number _, .object _
  | .string _, .null | .string _, .bool _ | .string _, .number _ | .string _, .array _
  | .string _, .object _
  | .array _, .null | .array _, .bool _ | .array _, .number _ | .array _, .string _
  | .array _, .object _
  | .object _, .null | .object _, .bool _ | .object _, .number _ | .object _, .string _
  | .object _, .array _ => isFalse (by intro h; cases h)

def decEqElems : (as bs : List Json) → Decidable (as = bs)
  | [], [] => isTrue rfl
  | a :: as, b :: bs =>
    match decEq a b, decEqElems as bs with
    | isTrue h, isTrue t => isTrue (by rw [h, t])
    | isFalse h, _ => isFalse (by intro e; cases e; exact h rfl)
    | _, isFalse t => isFalse (by intro e; cases e; exact t rfl)
  | [], _ :: _ | _ :: _, [] => isFalse (by intro h; cases h)

def decEqMembers : (as bs : List (String × Json)) → Decidable (as = bs)
  | [], [] => isTrue rfl
  | (k, a) :: as, (l, b) :: bs =>
    match decEq a b, decEqMembers as bs with
    | isTrue h, isTrue t =>
      if e : k = l then isTrue (by rw [h, t, e]) else isFalse (by intro q; cases q; exact e rfl)
    | isFalse h, _ => isFalse (by intro e; cases e; exact h rfl)
    | _, isFalse t => isFalse (by intro e; cases e; exact t rfl)
  | [], _ :: _ | _ :: _, [] => isFalse (by intro h; cases h)

end

instance : DecidableEq Json := decEq

/-- `Value::is_null`. -/
def isNull : Json → Bool
  | .null => true
  | _ => false

/-- `Value::get` on an object: the first member of that name. -/
def get? (j : Json) (name : String) : Option Json :=
  match j with
  | .object ms => (ms.find? (fun m => m.1 == name)).map Prod.snd
  | _ => none

def asStr? : Json → Option String
  | .string s => some s
  | _ => none

def asObject? : Json → Option (List (String × Json))
  | .object ms => some ms
  | _ => none

/- Every value is one node; an array or an object also counts what it holds. -/
mutual

def nodes : Json → Nat
  | .null | .bool _ | .number _ | .string _ => 1
  | .array xs => 1 + nodesElems xs
  | .object ms => 1 + nodesMembers ms

def nodesElems : List Json → Nat
  | [] => 0
  | x :: xs => x.nodes + nodesElems xs

def nodesMembers : List (String × Json) → Nat
  | [] => 0
  | (_, x) :: ms => x.nodes + nodesMembers ms

end

theorem nodes_pos (j : Json) : 0 < j.nodes := by
  cases j <;> simp [nodes]

theorem length_le_nodesElems (xs : List Json) : xs.length ≤ nodesElems xs := by
  induction xs with
  | nil => simp
  | cons x xs ih =>
    have h := nodes_pos x
    simp only [List.length_cons, nodesElems]
    omega

theorem nodes_le_nodesMembers {ms : List (String × Json)} {name : String} {j : Json}
    (mem : (name, j) ∈ ms) : j.nodes ≤ nodesMembers ms := by
  induction ms with
  | nil => cases mem
  | cons m ms ih =>
    simp only [nodesMembers]
    rcases List.mem_cons.mp mem with rfl | mem
    · exact Nat.le_add_right _ _
    · exact (ih mem).trans (Nat.le_add_left _ _)

def hexDigit (n : Nat) : Char :=
  if n < 10 then Char.ofNat (48 + n) else Char.ofNat (87 + n)

/-- The escapes of a compact writer: two-character escapes where JSON has one,
four hex digits for the other control characters, every other character as it is. -/
def escapeChar (c : Char) : List Char :=
  if c = '"' then ['\\', '"']
  else if c = '\\' then ['\\', '\\']
  else if c = '\x08' then ['\\', 'b']
  else if c = '\t' then ['\\', 't']
  else if c = '\n' then ['\\', 'n']
  else if c = '\x0c' then ['\\', 'f']
  else if c = '\r' then ['\\', 'r']
  else if c.toNat < 32 then
    ['\\', 'u', '0', '0', hexDigit (c.toNat / 16), hexDigit (c.toNat % 16)]
  else [c]

def quote (s : String) : List Char :=
  '"' :: (s.toList.flatMap escapeChar ++ ['"'])

def textNumber (f64 : UInt64 → List Char) : Number → List Char
  | .posInt n => Nat.toDigits 10 n.toNat
  | .negInt m => '-' :: Nat.toDigits 10 (m + 1)
  | .float bits => f64 bits

/- No blank stands between tokens; a comma precedes every element but the first. -/
mutual

def text (f64 : UInt64 → List Char) : Json → List Char
  | .null => ['n', 'u', 'l', 'l']
  | .bool true => ['t', 'r', 'u', 'e']
  | .bool false => ['f', 'a', 'l', 's', 'e']
  | .number n => textNumber f64 n
  | .string s => quote s
  | .array xs => '[' :: textElems f64 true xs
  | .object ms => '{' :: textMembers f64 true ms

def textElems (f64 : UInt64 → List Char) : Bool → List Json → List Char
  | _, [] => [']']
  | true, x :: xs => text f64 x ++ textElems f64 false xs
  | false, x :: xs => ',' :: (text f64 x ++ textElems f64 false xs)

def textMembers (f64 : UInt64 → List Char) : Bool → List (String × Json) → List Char
  | _, [] => ['}']
  | true, (k, x) :: ms => quote k ++ ':' :: (text f64 x ++ textMembers f64 false ms)
  | false, (k, x) :: ms => ',' :: (quote k ++ ':' :: (text f64 x ++ textMembers f64 false ms))

end

end Json

def utf8 (cs : List Char) : Bytes := cs.flatMap String.utf8EncodeChar

theorem utf8_append (cs ds : List Char) : utf8 (cs ++ ds) = utf8 cs ++ utf8 ds :=
  List.flatMap_append

theorem length_le_utf8 (cs : List Char) : cs.length ≤ (utf8 cs).length := by
  induction cs with
  | nil => simp [utf8]
  | cons c cs ih =>
    have h := Char.utf8Size_pos c
    simp only [utf8, List.flatMap_cons, List.length_append, List.length_cons,
      String.length_utf8EncodeChar] at ih ⊢
    omega

/-- `String::from_utf8` -/
def fromUtf8 (bytes : Bytes) : Option String := String.fromUTF8? bytes.toByteArray

theorem utf8_of_fromUtf8 {bytes : Bytes} {s : String} (h : fromUtf8 bytes = some s) :
    utf8 s.toList = bytes := by
  have same : s.toByteArray = bytes.toByteArray := by
    unfold fromUtf8 String.fromUTF8? at h
    split at h
    · rw [← Option.some.inj h]
      rfl
    · cases h
  rw [← String.ofList_toList (s := s), String.toByteArray_ofList] at same
  exact List.toByteArray_inj.mp same

theorem fromUtf8_utf8 (s : String) : fromUtf8 (utf8 s.toList) = some s := by
  have valid : (utf8 s.toList).toByteArray.IsValidUTF8 := ByteArray.isValidUTF8_utf8Encode
  have whole : fromUtf8 (utf8 s.toList) = some (String.ofList s.toList) := dif_pos valid
  rw [whole, String.ofList_toList]

namespace Number

/-- `Number::as_i64`: floats and integers above `i64::MAX` have none. -/
def asI64? : Number → Option Int
  | .posInt n => if n.toNat < 2 ^ 63 then some n.toNat else none
  | .negInt m => some (-(m + 1 : Int))
  | .float _ => none

/-- `n as f64`, as bits, for an integer from `2^63` on: the 53 leading bits,
rounded half to even. A carry out of the fraction lands in the exponent. -/
def bitsOfBig (n : Nat) : UInt64 :=
  let q := n / 2048
  let r := n % 2048
  let up := if 1024 < r ∨ (r = 1024 ∧ q % 2 = 1) then q + 1 else q
  UInt64.ofNat (0x43E0000000000000 + (up - 2 ^ 52))

/-- `Number::as_f64` as bits, on the numbers that have no `as_i64`. -/
def asF64Bits : Number → UInt64
  | .posInt n => bitsOfBig n.toNat
  | .negInt _ => 0
  | .float bits => bits

end Number

end GitAgentic
