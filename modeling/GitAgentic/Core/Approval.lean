import GitAgentic.Core.Refs

/-! Approval tokens of destructive rollbacks: a timestamp and the tag of an HMAC over the
commit, the user and the timestamp. -/
namespace GitAgentic

def approvalTokenTtlSeconds : UInt64 := 300

def approvalDomain : String := "git.agentic/rollback-approval/v1"

def approvalKeyLen : Nat := 32

abbrev Hmac := Bytes → Bytes → Bytes

structure ApprovalKey where
  bytes : Bytes
  length : bytes.length = approvalKeyLen

inductive ApprovalKeyError where
  | wrongLength (expected actual : Nat)
  deriving DecidableEq

def ApprovalKey.fromBytes (bytes : Bytes) : Except ApprovalKeyError ApprovalKey :=
  if length : bytes.length = approvalKeyLen then .ok { bytes, length }
  else .error (.wrongLength approvalKeyLen bytes.length)

inductive ApprovalRejection where
  | malformed
  | expired (ttl : UInt64)
  | invalidSignature
  deriving DecidableEq

def ApprovalRejection.message : ApprovalRejection → String
  | .malformed => "approval token is malformed (expected \"<unix_ts>:<hex_hmac>\")"
  | .expired ttl =>
    "approval token expired or clock-skewed beyond the " ++ toString ttl.toNat ++ "s window"
  | .invalidSignature => "approval token signature does not verify"

def toAsciiLowercase (s : String) : String := String.ofList (s.toList.map Char.toLower)

def decimal (n : Nat) : String := String.ofList (Nat.toDigits 10 n)

/-- `str::parse::<u64>`: digits, with at most one plus sign before them. -/
def parseU64 (s : String) : Option UInt64 :=
  let digits := match s.toList with
    | '+' :: rest => rest
    | cs => cs
  if digits = [] ∨ ¬ digits.all Char.isDigit then none
  else
    let n := Nat.ofDigitChars 10 digits 0
    if n < 2 ^ 64 then some n.toUInt64 else none

def splitOnceColon (cs : List Char) : Option (List Char × List Char) :=
  match cs.dropWhile (· ≠ ':') with
  | [] => none
  | _ :: after => some (cs.takeWhile (· ≠ ':'), after)

def saturatingSub (a b : UInt64) : UInt64 := if a ≤ b then 0 else a - b

def signingInput (commitHash : String) (peerUid : UInt32) (timestamp : UInt64) : Bytes :=
  utf8 (approvalDomain ++ ":" ++ commitHash ++ ":" ++ decimal peerUid.toNat ++ ":" ++
    decimal timestamp.toNat).toList

section

variable (hmac : Hmac)

def tag (key : ApprovalKey) (commitHash : String) (peerUid : UInt32) (timestamp : UInt64) : Bytes :=
  hmac key.bytes (signingInput commitHash peerUid timestamp)

def generateToken (key : ApprovalKey) (commitHash : String) (peerUid : UInt32) (now : UInt64) :
    String :=
  let mac := tag hmac key (toAsciiLowercase commitHash) peerUid now
  decimal now.toNat ++ ":" ++ String.ofList (mac.flatMap Platform.hexByte)

def verifyToken (key : ApprovalKey) (commitHash : String) (peerUid : UInt32) (token : String)
    (now : UInt64) : Except ApprovalRejection Unit := do
  let (ts, hexTag) ← (splitOnceColon token.toList).elim (throw .malformed) pure
  let timestamp ← (parseU64 (String.ofList ts)).elim (throw .malformed) pure
  let providedTag ← (Refs.hexDecode hexTag).elim (throw .malformed) pure
  if providedTag.length ≠ 32 then throw .malformed
  let delta := max (saturatingSub now timestamp) (saturatingSub timestamp now)
  if delta > approvalTokenTtlSeconds then throw (.expired approvalTokenTtlSeconds)
  if providedTag = tag hmac key (toAsciiLowercase commitHash) peerUid timestamp then return ()
  else throw .invalidSignature

end

end GitAgentic
