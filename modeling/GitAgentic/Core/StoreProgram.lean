import GitAgentic.Core.Store
import GitAgentic.Data.Program

/-! The puts of the object store, one file operation at a time. Where no address is shared
by two kinds of objects, a put keeps what the store holds however it is cut off. -/
namespace GitAgentic

variable {Hash : Type} (P : Platform Hash)

/-- The directories of the addresses are not part of the files; making one may fail. -/
def writeAtProgram (path : ObjectPath) (bytes : Bytes) : Program Files (Error Hash) Unit := do
  Program.read (fun _ => .ok ()) .io
  Program.call (fun files =>
    (.ok (), Function.update files (path.withExtension "tmp") (some (P.encodeAll bytes)))) .io
  Program.call (fun files =>
    match files (path.withExtension "tmp") with
    | none => (.error .io, files)
    | some content =>
      (.ok (), Function.update (Function.update files (path.withExtension "tmp") none) path
        (some content))) .io

/-- Writes unless the address is taken. A failed `exists` counts as absent. -/
def storeProgram (hash : Hash) (bytes : Bytes) : Program Files (Error Hash) Unit :=
  .op id (fun files =>
    if (files (pathFor P hash)).isSome then .done (.ok ())
    else writeAtProgram P (pathFor P hash) bytes) (writeAtProgram P (pathFor P hash) bytes)

namespace FsObjectStore

variable [DecidableEq Hash] (S : FsObjectStore Hash)

def putProgram (object : Object Hash) (policy : ScanPolicy) : Program Files (Error Hash) Hash :=
  let hits := match object with
    | .blob blob => S.scanner.scanWith blob.bytes policy
    | _ => []
  if hits ≠ [] ∧ object.hash P ∉ S.allowlist then .fail (.secretDetected hits)
  else do
    storeProgram P (object.hash P) (P.toVec (object.toJson P))
    return object.hash P

def putRawProgram (_kind : ObjectKind) (bytes : Bytes) : Program Files (Error Hash) Hash :=
  let hits := S.scanner.scan bytes
  if hits ≠ [] ∧ P.of bytes ∉ S.allowlist then .fail (.secretDetected hits)
  else do
    storeProgram P (P.of bytes) bytes
    return P.of bytes

end FsObjectStore

theorem run_writeAtProgram (path : ObjectPath) (bytes : Bytes) (files : Files) :
    (writeAtProgram P path bytes : Program Files (Error Hash) Unit).run files =
      (.ok (), writeAt P files path bytes) := by
  show (Program.bind _ _).run files = _
  rw [Program.run_bind, Program.run_read]
  show (Program.bind _ _).run files = _
  rw [Program.run_bind, Program.run_call]
  simp [writeAt]

theorem run_storeProgram (hash : Hash) (bytes : Bytes) (files : Files) :
    (storeProgram P hash bytes).run files =
      (.ok (), if (files (pathFor P hash)).isSome then files
        else writeAt P files (pathFor P hash) bytes) := by
  rw [storeProgram, Program.run]
  split
  · rfl
  · exact run_writeAtProgram P _ _ files

theorem run_store_taken {P : Platform Hash} {hash : Hash} {bytes : Bytes} {files : Files}
    (taken : (slots P files hash).isSome = true) :
    (storeProgram P hash bytes).run files = (.ok (), files) := by
  have present : (files (pathFor P hash)).isSome = true := taken
  rw [run_storeProgram, if_pos present]

theorem run_store_free {P : Platform Hash} {hash : Hash} {bytes : Bytes} {files : Files} (free : slots P files hash = none) :
    (storeProgram P hash bytes).run files = (.ok (), writeAt P files (pathFor P hash) bytes) := by
  have absent : files (pathFor P hash) = none := free
  rw [run_storeProgram, absent]
  rfl

section

variable [DecidableEq Hash] (S : FsObjectStore Hash)

theorem run_scanned (hits : List Hit) (hash : Hash) (bytes : Bytes) (files : Files) :
    (if hits ≠ [] ∧ hash ∉ S.allowlist then Program.fail (.secretDetected hits)
      else do
        storeProgram P hash bytes
        return hash : Program Files (Error Hash) Hash).run files =
      if hits ≠ [] ∧ hash ∉ S.allowlist then (.error (.secretDetected hits), files)
      else (.ok hash, if (files (pathFor P hash)).isSome then files
        else writeAt P files (pathFor P hash) bytes) := by
  split
  · rfl
  · show (Program.bind _ _).run files = _
    rw [Program.run_bind, run_storeProgram]
    rfl

theorem run_putProgram (object : Object Hash) (policy : ScanPolicy) (files : Files) :
    (S.putProgram P object policy).run files = S.putWithPolicy P object policy files :=
  run_scanned P S _ _ _ files

theorem run_putRawProgram (kind : ObjectKind) (bytes : Bytes) (files : Files) :
    (S.putRawProgram P kind bytes).run files = S.putRaw P kind bytes files :=
  run_scanned P S _ _ _ files

end

/-- The kind of object each hash belongs to. Raw objects have the kind of segments. -/
structure Kinds where
  kindOf : Hash → ObjectKind
  tree : ∀ t : Tree Hash, kindOf ((Object.tree t).hash P) = .tree
  commit : ∀ c : Commit Hash, kindOf ((Object.commit c).hash P) = .commit

variable {P}

/-- What may be stored at an address. -/
def Kinds.Slot (K : Kinds P) (hash : Hash) (compressed : Bytes) : Prop :=
  (∃ o : Object Hash, K.kindOf hash = o.kind ∧ o.hash P = hash ∧
    compressed = P.encodeAll (P.toVec (o.toJson P))) ∨
  ∃ bytes, K.kindOf hash = .segment ∧ P.of bytes = hash ∧ compressed = P.encodeAll bytes

def Kinds.Typed (K : Kinds P) (files : Files) : Prop :=
  ∀ hash compressed, slots P files hash = some compressed → K.Slot hash compressed

/-- Nothing that is stored is lost or changed. -/
def Widens (P : Platform Hash) (files files' : Files) : Prop :=
  ∀ hash compressed, slots P files hash = some compressed → slots P files' hash = some compressed

theorem Widens.refl (files : Files) : Widens P files files := fun _ _ h => h

theorem Widens.trans {files files' files'' : Files} (first : Widens P files files')
    (second : Widens P files' files'') : Widens P files files'' :=
  fun hash compressed h => second hash compressed (first hash compressed h)

theorem Kinds.Slot.unique {K : Kinds P} {hash : Hash} {a b : Bytes} (ha : K.Slot hash a)
    (hb : K.Slot hash b) : a = b := by
  rcases ha with ⟨o, kind, address, rfl⟩ | ⟨bytes, kind, address, rfl⟩ <;>
    rcases hb with ⟨o', kind', address', rfl⟩ | ⟨bytes', kind', address', rfl⟩
  · have same := Object.preimage_inj P (kind.symm.trans kind') (P.of_injective (address.trans address'.symm))
    rw [same]
  · rw [kind] at kind'
    cases o <;> cases kind'
  · rw [kind'] at kind
    cases o' <;> cases kind
  · rw [P.of_injective (address.trans address'.symm)]

/-- The files between the steps of a put: all is kept, and what is new is the object. -/
structure Retains (K : Kinds P) (files files' : Files) : Prop where
  typed : K.Typed files'
  widens : Widens P files files'

theorem Retains.refl {K : Kinds P} {files : Files} (typed : K.Typed files) : Retains K files files :=
  ⟨typed, Widens.refl files⟩

theorem Retains.trans {K : Kinds P} {files files' files'' : Files} (first : Retains K files files')
    (second : Retains K files' files'') : Retains K files files'' :=
  ⟨second.typed, first.widens.trans second.widens⟩

theorem slots_tmp (files : Files) (hash : Hash) (content : Option Bytes) :
    slots P (Function.update files ((pathFor P hash).withExtension "tmp") content) = slots P files := by
  funext other
  refine Function.update_of_ne ?_ _ _
  intro same
  have extension := congrArg ObjectPath.extension same
  simp [pathFor, ObjectPath.withExtension] at extension

theorem Retains.of_slots {K : Kinds P} {files files' files'' : Files} (kept : Retains K files files')
    (same : slots P files'' = slots P files') : Retains K files files'' where
  typed hash compressed h := kept.typed hash compressed (same ▸ h)
  widens hash compressed h := same ▸ kept.widens hash compressed h

section

variable [DecidableEq Hash] {faults : Prop}

theorem writeAt_safe {K : Kinds P} {hash : Hash} {bytes : Bytes} {files₀ files : Files}
    (slot : K.Slot hash (P.encodeAll bytes)) (kept : Retains K files₀ files) :
    (writeAtProgram P (pathFor P hash) bytes : Program Files (Error Hash) Unit).Safe faults
      (Retains K files₀)
      (fun r files' => Retains K files₀ files' ∧
        (r = .ok () → slots P files' hash = some (P.encodeAll bytes))) files := by
  refine Program.Safe.bind (Program.Safe.call kept ?_ (fun _ => ⟨kept, nofun⟩))
  have written := kept.of_slots (slots_tmp files hash (some (P.encodeAll bytes)))
  refine Program.Safe.bind (Program.Safe.call kept ?_ (fun _ => ⟨kept, nofun⟩))
  refine Program.Safe.call written ?_ (fun _ => ⟨written, nofun⟩)
  simp only [Function.update_self, forall_const]
  have after : slots P (Function.update (Function.update (Function.update files
      ((pathFor P hash).withExtension "tmp") (some (P.encodeAll bytes)))
      ((pathFor P hash).withExtension "tmp") none) (pathFor P hash) (some (P.encodeAll bytes))) =
      Function.update (slots P files) hash (some (P.encodeAll bytes)) := by
    have whole := slots_writeAt P files hash bytes
    simp only [writeAt, Function.update_self] at whole
    exact whole
  refine ⟨⟨?_, ?_⟩, ?_⟩
  · intro other compressed h
    rw [after] at h
    by_cases here : other = hash
    · subst here
      rw [Function.update_self] at h
      cases h
      exact slot
    · rw [Function.update_of_ne here] at h
      exact kept.typed other compressed h
  · intro other compressed h
    rw [after]
    have before := kept.widens other compressed h
    by_cases here : other = hash
    · subst here
      rw [Function.update_self, (kept.typed _ _ before).unique slot]
    · rw [Function.update_of_ne here]
      exact before
  · rw [after, Function.update_self]

theorem store_safe {K : Kinds P} {hash : Hash} {bytes : Bytes} {files₀ files : Files}
    (slot : K.Slot hash (P.encodeAll bytes)) (kept : Retains K files₀ files) :
    (storeProgram P hash bytes).Safe faults (Retains K files₀)
      (fun r files' => Retains K files₀ files' ∧
        (r = .ok () → slots P files' hash = some (P.encodeAll bytes))) files := by
  refine ⟨kept, ?_, fun _ => writeAt_safe slot kept⟩
  cases present : files (pathFor P hash) with
  | none => simpa [present] using writeAt_safe slot kept
  | some compressed =>
    simp only [present, Option.isSome_some, if_true]
    have held : slots P files hash = some compressed := present
    exact ⟨kept, fun _ => by rw [id, held, (kept.typed _ _ held).unique slot]⟩

/-- The store returns the object for the address. -/
def Has (P : Platform Hash) (files : Files) (hash : Hash) (o : Object Hash) : Prop :=
  get P files hash = .ok o

def HasRaw (P : Platform Hash) (files : Files) (hash : Hash) (bytes : Bytes) : Prop :=
  getRaw P files hash = .ok bytes

theorem has_of_slot {files : Files} {o : Object Hash}
    (slot : slots P files (o.hash P) = some (P.encodeAll (P.toVec (o.toJson P)))) :
    Has P files (o.hash P) o := by
  refine (get_eq_ok_iff P (held_of_slot P slot)).mpr ⟨?_, rfl⟩
  rw [P.fromSlice_toVec, Option.bind_some, o.fromJson_toJson P]

theorem hasRaw_of_slot {files : Files} {bytes : Bytes}
    (slot : slots P files (P.of bytes) = some (P.encodeAll bytes)) :
    HasRaw P files (P.of bytes) bytes :=
  (getRaw_eq_ok_iff P (held_of_slot P slot)).mpr ⟨rfl, rfl⟩

theorem get_congr {files files' : Files} {hash : Hash}
    (same : slots P files' hash = slots P files hash) : get P files' hash = get P files hash := by
  have path : files' (pathFor P hash) = files (pathFor P hash) := same
  simp only [get, readAt, path]

theorem getRaw_congr {files files' : Files} {hash : Hash}
    (same : slots P files' hash = slots P files hash) :
    getRaw P files' hash = getRaw P files hash := by
  have path : files' (pathFor P hash) = files (pathFor P hash) := same
  simp only [getRaw, readAt, path]

theorem slot_of_get {files : Files} {hash : Hash} {o : Object Hash} (has : get P files hash = .ok o) :
    (slots P files hash).isSome = true := by
  cases slot : slots P files hash with
  | some compressed => rfl
  | none =>
    have absent : files (pathFor P hash) = none := slot
    simp only [get, absent, Option.isNone_none, if_true] at has
    cases has

theorem Has.mono {files files' : Files} {hash : Hash} {o : Object Hash} (has : Has P files hash o)
    (more : Widens P files files') : Has P files' hash o := by
  obtain ⟨compressed, slot⟩ := Option.isSome_iff_exists.mp (slot_of_get has)
  exact (get_congr ((more hash compressed slot).trans slot.symm)).trans has

theorem HasRaw.mono {files files' : Files} {hash : Hash} {bytes : Bytes}
    (has : HasRaw P files hash bytes) (more : Widens P files files') :
    HasRaw P files' hash bytes := by
  obtain ⟨_, slot, _⟩ := Option.bind_eq_some_iff.mp (getRaw_of_ok P has).1
  exact (getRaw_congr ((more hash _ slot).trans slot.symm)).trans has

theorem Kinds.Typed.hash_of_has {K : Kinds P} {files : Files} (typed : K.Typed files) {hash : Hash}
    {o : Object Hash} (has : Has P files hash o) : o.hash P = hash := by
  obtain ⟨compressed, slot⟩ := Option.isSome_iff_exists.mp (slot_of_get has)
  rcases typed hash compressed slot with ⟨o', _, rfl, rfl⟩ | ⟨bytes, _, rfl, rfl⟩
  · have same := (has_of_slot slot).symm.trans has
    cases same
    rfl
  · exact ((get_eq_ok_iff P (held_of_slot P slot)).mp has).2

section

variable {K : Kinds P} (S : FsObjectStore Hash) {files₀ files : Files}

theorem scanned_safe {hits : List Hit} {hash : Hash} {bytes : Bytes} {found : Files → Prop}
    (slot : K.Slot hash (P.encodeAll bytes))
    (reads : ∀ files', slots P files' hash = some (P.encodeAll bytes) → found files')
    (kept : Retains K files₀ files) :
    (if hits ≠ [] ∧ hash ∉ S.allowlist then Program.fail (.secretDetected hits)
      else do
        storeProgram P hash bytes
        return hash : Program Files (Error Hash) Hash).Safe faults (Retains K files₀)
      (fun r files' => Retains K files₀ files' ∧ ∀ h, r = .ok h → h = hash ∧ found files') files := by
  split
  · exact ⟨kept, nofun⟩
  · refine Program.Safe.bind ((store_safe slot kept).mono (fun _ h => h) ?_)
    rintro (_ | _) files' ⟨kept', stored⟩
    · exact ⟨kept', nofun⟩
    · refine ⟨kept', ?_⟩
      rintro h ⟨⟩
      exact ⟨rfl, reads files' (stored rfl)⟩

theorem put_safe {o : Object Hash} {policy : ScanPolicy} (kind : K.kindOf (o.hash P) = o.kind)
    (kept : Retains K files₀ files) : (S.putProgram P o policy).Safe faults (Retains K files₀)
      (fun r files' => Retains K files₀ files' ∧
        ∀ hash, r = .ok hash → hash = o.hash P ∧ Has P files' (o.hash P) o) files :=
  scanned_safe S (Or.inl ⟨o, kind, rfl, rfl⟩) (fun _ => has_of_slot) kept

theorem putRaw_safe {kind : ObjectKind} {bytes : Bytes} (raw : K.kindOf (P.of bytes) = .segment)
    (kept : Retains K files₀ files) : (S.putRawProgram P kind bytes).Safe faults (Retains K files₀)
      (fun r files' => Retains K files₀ files' ∧
        ∀ hash, r = .ok hash → hash = P.of bytes ∧ HasRaw P files' (P.of bytes) bytes) files :=
  scanned_safe S (Or.inr ⟨bytes, raw, rfl, rfl⟩) (fun _ => hasRaw_of_slot) kept

end

end

end GitAgentic
