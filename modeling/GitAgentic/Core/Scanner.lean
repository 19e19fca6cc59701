import GitAgentic.Json.Value

/-! The secret scanner: pattern rules, then one pass for long runs of base64-like
bytes. Regular expressions and the entropy test come from outside. -/
namespace GitAgentic

structure ScanPolicy where
  skipEntropy : Bool := false
  deriving DecidableEq, Repr

inductive HitKind where
  | pattern (name : String)
  | highEntropy
  deriving DecidableEq, Repr

structure Hit where
  kind : HitKind
  offset : Nat
  length : Nat
  deriving DecidableEq, Repr

/-- Each pattern carries its name and the start and end of all its matches;
`suspicious` says that the entropy of a run is above the threshold. -/
structure Scanner where
  patterns : List (String × (Bytes → List (Nat × Nat)))
  suspicious : Bytes → Bool

def isBase64ish (b : UInt8) : Bool :=
  (48 ≤ b && b ≤ 57) || (65 ≤ b && b ≤ 90) || (97 ≤ b && b ≤ 122) ||
    b == 43 || b == 47 || b == 61 || b == 95 || b == 45

def minRunLength : Nat := 20

namespace Scanner

variable (S : Scanner)

def maybeEmitEntropyHit (bytes : Bytes) (start stop : Nat) : List Hit :=
  let len := stop - start
  if len < minRunLength then []
  else if S.suspicious ((bytes.drop start).take len) then
    [{ kind := .highEntropy, offset := start, length := len }]
  else []

def entropyHits (bytes : Bytes) : Nat → Option Nat → Bytes → List Hit
  | _, none, [] => []
  | i, some start, [] => S.maybeEmitEntropyHit bytes start i
  | i, runStart, b :: rest =>
    if isBase64ish b then entropyHits bytes (i + 1) (some (runStart.getD i)) rest
    else match runStart with
      | some start => S.maybeEmitEntropyHit bytes start i ++ entropyHits bytes (i + 1) none rest
      | none => entropyHits bytes (i + 1) none rest

def patternHits (bytes : Bytes) : List Hit :=
  S.patterns.flatMap (fun p =>
    (p.2 bytes).map (fun m => { kind := .pattern p.1, offset := m.1, length := m.2 - m.1 }))

def scanImpl (bytes : Bytes) : List Hit :=
  S.patternHits bytes ++ S.entropyHits bytes 0 none bytes

def scanWith (bytes : Bytes) (policy : ScanPolicy) : List Hit :=
  if policy.skipEntropy then (S.scanImpl bytes).filter (fun h => h.kind ≠ .highEntropy)
  else S.scanImpl bytes

def scan (bytes : Bytes) : List Hit := S.scanWith bytes {}

/-- No pattern and no suspicious run. -/
def silent : Scanner := { patterns := [], suspicious := fun _ => false }

theorem entropyHits_silent (bytes : Bytes) (i : Nat) (runStart : Option Nat) (rest : Bytes) :
    silent.entropyHits bytes i runStart rest = [] := by
  have emit : ∀ start stop, silent.maybeEmitEntropyHit bytes start stop = [] := by
    intro start stop
    simp [maybeEmitEntropyHit, silent]
  induction rest generalizing i runStart with
  | nil => cases runStart <;> simp [entropyHits, emit]
  | cons b rest ih => cases runStart <;> simp [entropyHits, emit, ih]

@[simp] theorem scanWith_silent (bytes : Bytes) (policy : ScanPolicy) :
    silent.scanWith bytes policy = [] := by
  have clean : silent.scanImpl bytes = [] := by
    simp only [scanImpl, entropyHits_silent, patternHits, List.append_nil]
    rfl
  simp [scanWith, clean]

end Scanner

end GitAgentic
