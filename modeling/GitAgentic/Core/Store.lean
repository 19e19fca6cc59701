import GitAgentic.Core.ObjectCodec
import GitAgentic.Core.Scanner
import GitAgentic.Data.WriteOnce

/-! The local object store: one compressed file for each address, written once.
A typed object and a raw byte string share the address space. -/
namespace GitAgentic

inductive Error (Hash : Type) where
  | io
  | serialize
  | notFound (hash : Hash)
  | kindMismatch (expected actual : ObjectKind)
  | integrityError (declared computed : Hash)
  | secretDetected (hits : List Hit)
  | invalidBranchName (name reason : String)
  | other (message : String)
  deriving DecidableEq

/-- `objects/<dir>/<stem>.<extension>` -/
structure ObjectPath where
  dir : String
  stem : String
  extension : String
  deriving DecidableEq

def ObjectPath.withExtension (path : ObjectPath) (extension : String) : ObjectPath :=
  { path with extension }

abbrev Files := ObjectPath → Option Bytes

/-- An object store as seen through its raw operations. What was put can be read back, and
stays readable whatever is put later. -/
structure RawStore (Hash σ : Type) where
  putRaw : ObjectKind → Bytes → σ → Except (Error Hash) Hash × σ
  getRaw : σ → Hash → Except (Error Hash) Bytes
  stored : ∀ kind bytes s hash s', putRaw kind bytes s = (.ok hash, s') → getRaw s' hash = .ok bytes
  kept : ∀ kind bytes s hash found,
    getRaw s hash = .ok found → getRaw (putRaw kind bytes s).2 hash = .ok found

/-- Where a hash is the bytes themselves, nothing has to be kept. -/
def RawStore.identity : RawStore Bytes Unit where
  putRaw _ bytes s := (.ok bytes, s)
  getRaw _ hash := .ok hash
  stored := by
    rintro kind bytes s hash s' ⟨⟩
    rfl
  kept _ _ _ _ _ h := h

structure FsObjectStore (Hash : Type) where
  scanner : Scanner
  allowlist : List Hash

section

variable {Hash : Type} (P : Platform Hash)

def pathFor (hash : Hash) : ObjectPath :=
  { dir := (P.shard hash).1, stem := (P.shard hash).2, extension := "zst" }

def writeAt (files : Files) (path : ObjectPath) (bytes : Bytes) : Files :=
  let tmp := path.withExtension "tmp"
  let written := Function.update files tmp (some (P.encodeAll bytes))
  Function.update (Function.update written tmp none) path (written tmp)

def readAt (files : Files) (path : ObjectPath) : Except (Error Hash) Bytes :=
  match files path with
  | none => .error .io
  | some compressed =>
    match P.decodeAll compressed with
    | none => .error .io
    | some bytes => .ok bytes

def slots (files : Files) (hash : Hash) : Option Bytes := files (pathFor P hash)

theorem pathFor_injective : Function.Injective (pathFor P) := by
  intro h k same
  apply P.shard_injective
  exact Prod.ext (congrArg ObjectPath.dir same) (congrArg ObjectPath.stem same)

/-- The bytes an address decompresses to. -/
def held (files : Files) (hash : Hash) : Option Bytes := (slots P files hash).bind P.decodeAll

theorem held_of_slot {files : Files} {hash : Hash} {bytes : Bytes}
    (slot : slots P files hash = some (P.encodeAll bytes)) : held P files hash = some bytes := by
  rw [held, slot, Option.bind_some, P.decodeAll_encodeAll]

theorem readAt_of_held {files : Files} {hash : Hash} {bytes : Bytes}
    (holds : held P files hash = some bytes) :
    (files (pathFor P hash)).isNone = false ∧ readAt P files (pathFor P hash) = .ok bytes := by
  obtain ⟨compressed, slot, decoded⟩ := Option.bind_eq_some_iff.mp holds
  have present : files (pathFor P hash) = some compressed := slot
  constructor
  · rw [present]
    rfl
  · simp only [readAt, present, decoded]

variable [DecidableEq Hash]

def checkIntegrity (declared computed : Hash) : Except (Error Hash) Unit :=
  if computed = declared then .ok () else .error (.integrityError declared computed)

namespace FsObjectStore

variable (S : FsObjectStore Hash)

def putWithPolicy (object : Object Hash) (policy : ScanPolicy) (files : Files) :
    Except (Error Hash) Hash × Files :=
  let hits := match object with
    | .blob blob => S.scanner.scanWith blob.bytes policy
    | _ => []
  if hits ≠ [] ∧ object.hash P ∉ S.allowlist then (.error (.secretDetected hits), files)
  else
    let bytes := P.toVec (object.toJson P)
    let hash := object.hash P
    let path := pathFor P hash
    (.ok hash, if (files path).isSome then files else writeAt P files path bytes)

def put (object : Object Hash) (files : Files) : Except (Error Hash) Hash × Files :=
  S.putWithPolicy P object {} files

def putRaw (_kind : ObjectKind) (bytes : Bytes) (files : Files) :
    Except (Error Hash) Hash × Files :=
  let hits := S.scanner.scan bytes
  if hits ≠ [] ∧ P.of bytes ∉ S.allowlist then (.error (.secretDetected hits), files)
  else
    let hash := P.of bytes
    let path := pathFor P hash
    (.ok hash, if (files path).isSome then files else writeAt P files path bytes)

end FsObjectStore

def get (files : Files) (hash : Hash) : Except (Error Hash) (Object Hash) := do
  let path := pathFor P hash
  if (files path).isNone then throw (.notFound hash)
  let bytes ← readAt P files path
  match (P.fromSlice bytes).bind (Object.fromJson P) with
  | none => throw .serialize
  | some object =>
    checkIntegrity hash (object.hash P)
    return object

def getRaw (files : Files) (hash : Hash) : Except (Error Hash) Bytes := do
  let path := pathFor P hash
  if (files path).isNone then throw (.notFound hash)
  let bytes ← readAt P files path
  checkIntegrity hash (P.of bytes)
  return bytes

def has (files : Files) (hash : Hash) : Bool := (files (pathFor P hash)).isSome

theorem slots_writeAt (files : Files) (hash : Hash) (bytes : Bytes) :
    slots P (writeAt P files (pathFor P hash) bytes) =
      Function.update (slots P files) hash (some (P.encodeAll bytes)) := by
  funext other
  have temporary : pathFor P other ≠ (pathFor P hash).withExtension "tmp" := by
    intro same
    have extension := congrArg ObjectPath.extension same
    simp [pathFor, ObjectPath.withExtension] at extension
  by_cases h : other = hash
  · subst h
    simp [slots, writeAt]
  · have apart : pathFor P other ≠ pathFor P hash := fun e => h (pathFor_injective P e)
    simp [slots, writeAt, h, apart, temporary]

theorem held_writeAt (files : Files) (hash : Hash) (bytes : Bytes) :
    held P (writeAt P files (pathFor P hash) bytes) hash = some bytes := by
  apply held_of_slot
  rw [slots_writeAt, Function.update_self]

theorem slots_store (files : Files) (hash : Hash) (bytes : Bytes) :
    slots P (if (files (pathFor P hash)).isSome then files
      else writeAt P files (pathFor P hash) bytes) =
      WriteOnce.put (slots P files) hash (P.encodeAll bytes) := by
  unfold WriteOnce.put
  rw [← slots_writeAt]
  exact apply_ite (slots P) _ _ _

theorem get_of_held {files : Files} {hash : Hash} {bytes : Bytes}
    (holds : held P files hash = some bytes) :
    get P files hash = match (P.fromSlice bytes).bind (Object.fromJson P) with
      | none => .error .serialize
      | some object => do
        checkIntegrity hash (object.hash P)
        return object := by
  obtain ⟨present, read⟩ := readAt_of_held P holds
  simp only [get, present, read]
  rfl

theorem getRaw_of_held {files : Files} {hash : Hash} {bytes : Bytes}
    (holds : held P files hash = some bytes) :
    getRaw P files hash = do
      checkIntegrity hash (P.of bytes)
      return bytes := by
  obtain ⟨present, read⟩ := readAt_of_held P holds
  simp only [getRaw, present, read]
  rfl

theorem checked_eq_ok_iff {α : Type} (declared computed : Hash) (a b : α) :
    (do
      checkIntegrity declared computed
      return a : Except (Error Hash) α) = .ok b ↔ a = b ∧ computed = declared := by
  by_cases h : computed = declared
  · simp only [checkIntegrity, if_pos h]
    constructor
    · intro e
      cases e
      exact ⟨rfl, h⟩
    · rintro ⟨rfl, _⟩
      rfl
  · simp only [checkIntegrity, if_neg h]
    constructor
    · intro e
      cases e
    · rintro ⟨_, same⟩
      exact absurd same h

theorem get_eq_ok_iff {files : Files} {hash : Hash} {bytes : Bytes} {object : Object Hash}
    (holds : held P files hash = some bytes) :
    get P files hash = .ok object ↔
      (P.fromSlice bytes).bind (Object.fromJson P) = some object ∧ object.hash P = hash := by
  rw [get_of_held P holds]
  cases read : (P.fromSlice bytes).bind (Object.fromJson P) with
  | none => simp
  | some found =>
    simp only [checked_eq_ok_iff, Option.some.injEq]
    constructor
    · rintro ⟨rfl, same⟩
      exact ⟨rfl, same⟩
    · rintro ⟨rfl, same⟩
      exact ⟨rfl, same⟩

theorem getRaw_eq_ok_iff {files : Files} {hash : Hash} {bytes found : Bytes}
    (holds : held P files hash = some bytes) :
    getRaw P files hash = .ok found ↔ bytes = found ∧ P.of bytes = hash := by
  rw [getRaw_of_held P holds, checked_eq_ok_iff]

/-- Files in which every slot holds bytes that hash to its address. Typed objects,
whose stored form is not what they hash, are outside. -/
structure RawFiles where
  files : Files
  addressed : ∀ hash compressed, slots P files hash = some compressed →
    ∃ bytes, P.decodeAll compressed = some bytes ∧ P.of bytes = hash

omit [DecidableEq Hash] in
theorem RawFiles.held_of_slot (s : RawFiles P) {hash : Hash} {compressed : Bytes}
    (slot : slots P s.files hash = some compressed) :
    ∃ bytes, held P s.files hash = some bytes ∧ P.of bytes = hash := by
  obtain ⟨bytes, decoded, address⟩ := s.addressed hash compressed slot
  exact ⟨bytes, by rw [held, slot, Option.bind_some, decoded], address⟩

theorem putRaw_cases (S : FsObjectStore Hash) (kind : ObjectKind) (bytes : Bytes) (files : Files) :
    (∃ hits, S.putRaw P kind bytes files = (.error (.secretDetected hits), files)) ∨
      ∃ files', S.putRaw P kind bytes files = (.ok (P.of bytes), files') ∧
        slots P files' = WriteOnce.put (slots P files) (P.of bytes) (P.encodeAll bytes) := by
  simp only [FsObjectStore.putRaw]
  by_cases refused : S.scanner.scan bytes ≠ [] ∧ P.of bytes ∉ S.allowlist
  · rw [if_pos refused]
    exact Or.inl ⟨_, rfl⟩
  · rw [if_neg refused]
    exact Or.inr ⟨_, rfl, slots_store P files _ bytes⟩

theorem getRaw_of_ok {files : Files} {hash : Hash} {bytes : Bytes}
    (h : getRaw P files hash = .ok bytes) :
    held P files hash = some bytes ∧ P.of bytes = hash := by
  cases holds : held P files hash with
  | some found =>
    obtain ⟨rfl, address⟩ := (getRaw_eq_ok_iff P holds).mp h
    exact ⟨rfl, address⟩
  | none =>
    cases slot : files (pathFor P hash) with
    | none =>
      simp only [getRaw, slot, Option.isNone_none, if_true] at h
      cases h
    | some compressed =>
      have undecodable : P.decodeAll compressed = none := by
        have both : (slots P files hash).bind P.decodeAll = none := holds
        rwa [show slots P files hash = some compressed from slot] at both
      simp only [getRaw, readAt, slot, undecodable] at h
      cases h

namespace RawFiles

theorem addressed_putRaw (s : RawFiles P) (S : FsObjectStore Hash) (kind : ObjectKind)
    (bytes : Bytes) (hash : Hash) (compressed : Bytes)
    (slot : slots P (S.putRaw P kind bytes s.files).2 hash = some compressed) :
    ∃ bytes, P.decodeAll compressed = some bytes ∧ P.of bytes = hash := by
  rcases putRaw_cases P S kind bytes s.files with ⟨hits, refused⟩ | ⟨files', accepted, written⟩
  · rw [refused] at slot
    exact s.addressed hash compressed slot
  · rw [accepted, written, WriteOnce.put_apply] at slot
    by_cases here : hash = P.of bytes
    · rw [if_pos here] at slot
      cases before : slots P s.files (P.of bytes) with
      | none =>
        rw [before] at slot
        cases slot
        exact ⟨bytes, P.decodeAll_encodeAll bytes, here.symm⟩
      | some held =>
        rw [before] at slot
        cases slot
        exact here ▸ s.addressed (P.of bytes) held before
    · rw [if_neg here] at slot
      exact s.addressed hash compressed slot

def putRaw (S : FsObjectStore Hash) (kind : ObjectKind) (bytes : Bytes) (s : RawFiles P) :
    Except (Error Hash) Hash × RawFiles P :=
  ((S.putRaw P kind bytes s.files).1,
    { files := (S.putRaw P kind bytes s.files).2
      addressed := s.addressed_putRaw P S kind bytes })

theorem stored (S : FsObjectStore Hash) (kind : ObjectKind) (bytes : Bytes) (s : RawFiles P)
    (hash : Hash) (s' : RawFiles P) (h : s.putRaw P S kind bytes = (.ok hash, s')) :
    getRaw P s'.files hash = .ok bytes := by
  obtain ⟨ok, rfl⟩ := Prod.mk.inj h
  have address : P.of bytes = hash ∧ slots P (S.putRaw P kind bytes s.files).2 =
      WriteOnce.put (slots P s.files) (P.of bytes) (P.encodeAll bytes) := by
    rcases putRaw_cases P S kind bytes s.files with ⟨hits, refused⟩ | ⟨files', accepted, written⟩
    · rw [refused] at ok
      cases ok
    · rw [accepted] at ok ⊢
      exact ⟨Except.ok.inj ok, written⟩
  obtain ⟨rfl, written⟩ := address
  suffices holds : held P (S.putRaw P kind bytes s.files).2 (P.of bytes) = some bytes from
    (getRaw_eq_ok_iff P holds).mpr ⟨rfl, rfl⟩
  show (slots P (S.putRaw P kind bytes s.files).2 (P.of bytes)).bind P.decodeAll = some bytes
  rw [written, WriteOnce.put_apply, if_pos rfl]
  cases before : slots P s.files (P.of bytes) with
  | none => exact P.decodeAll_encodeAll bytes
  | some compressed =>
    obtain ⟨found, decoded, same⟩ := s.addressed _ _ before
    rw [Option.getD_some, Option.bind_some, decoded, P.of_injective same]

theorem kept (S : FsObjectStore Hash) (kind : ObjectKind) (bytes : Bytes) (s : RawFiles P)
    (hash : Hash) (found : Bytes) (h : getRaw P s.files hash = .ok found) :
    getRaw P (s.putRaw P S kind bytes).2.files hash = .ok found := by
  obtain ⟨holds, address⟩ := getRaw_of_ok P h
  obtain ⟨compressed, slot, decoded⟩ := Option.bind_eq_some_iff.mp holds
  suffices holds : held P (S.putRaw P kind bytes s.files).2 hash = some found from
    (getRaw_eq_ok_iff P holds).mpr ⟨rfl, address⟩
  suffices same : slots P (S.putRaw P kind bytes s.files).2 hash = some compressed by
    show (slots P (S.putRaw P kind bytes s.files).2 hash).bind P.decodeAll = some found
    rw [same, Option.bind_some, decoded]
  rcases putRaw_cases P S kind bytes s.files with ⟨hits, refused⟩ | ⟨files', accepted, written⟩
  · rw [refused]
    exact slot
  · rw [accepted, written, WriteOnce.put_apply]
    split
    · rename_i here
      rw [← here, slot]
      rfl
    · exact slot

end RawFiles

/-- The local store over raw files. -/
def FsObjectStore.rawStore (S : FsObjectStore Hash) : RawStore Hash (RawFiles P) where
  putRaw kind bytes s := s.putRaw P S kind bytes
  getRaw s hash := getRaw P s.files hash
  stored := RawFiles.stored P S
  kept := RawFiles.kept P S

end

end GitAgentic
