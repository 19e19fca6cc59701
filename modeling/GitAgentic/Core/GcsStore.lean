import GitAgentic.Core.Store

/-! The store in a bucket: every object is uploaded, and a local cache answers reads. The
cache is written before the upload, and its slot is removed when the upload fails. -/
namespace GitAgentic

/-- Whether requests go through; if not, what they fail with. -/
inductive Link where
  | up
  | down (cause : String)
  deriving DecidableEq, Repr

/-- Where a write to the cache fails: no directory, a write that leaves a part of the
bytes in the temporary file or nothing, or no rename. -/
inductive CacheFault where
  | createDir
  | write (left : Option Bytes)
  | rename
  deriving DecidableEq, Repr

/-- The cached files, and the compressed object under each name of the bucket. -/
structure GcsState (Hash : Type) where
  cache : Files
  bucket : Hash → Option Bytes

structure GcsObjectStore (Hash : Type) where
  scanner : Scanner
  allowlist : List Hash

/-- What goes wrong during a put, if anything. -/
structure PutFaults where
  cache : Option CacheFault := none
  upload : Option String := none
  deriving DecidableEq, Repr

namespace GcsObjectStore

section

variable {Hash : Type} (P : Platform Hash)

def cacheRead (hash : Hash) (cache : Files) : Option Bytes :=
  (cache (pathFor P hash)).bind P.decodeAll

/-- A temporary sibling is written first and renamed over the path. -/
def cacheWriteCompressed (fault : Option CacheFault) (hash : Hash) (compressed : Bytes)
    (cache : Files) : Except (Error Hash) Unit × Files :=
  let path := pathFor P hash
  let tmp := path.withExtension "tmp"
  match fault with
  | some .createDir => (.error .io, cache)
  | some (.write left) => (.error .io, Function.update cache tmp left)
  | some .rename => (.error .io, Function.update cache tmp (some compressed))
  | none =>
    let written := Function.update cache tmp (some compressed)
    (.ok (), Function.update (Function.update written tmp none) path (written tmp))

def evictCacheEntry (hash : Hash) (cache : Files) : Files :=
  Function.update cache (pathFor P hash) none

variable [DecidableEq Hash]

/-- The object in the bucket, decompressed and compressed. -/
def downloadCompressed (link : Link) (hash : Hash) (st : GcsState Hash) :
    Except (Error Hash) (Option (Bytes × Bytes)) :=
  match link with
  | .down cause => .error (.other cause)
  | .up =>
    match st.bucket hash with
    | none => .ok none
    | some compressed =>
      match P.decodeAll compressed with
      | none => .error .io
      | some bytes => .ok (some (bytes, compressed))

/-- What comes from the bucket is checked before it is cached. -/
def refetch {T : Type} (link : Link) (fault : Option CacheFault) (hash : Hash)
    (map : Bytes → Except (Error Hash) T) (st : GcsState Hash) :
    Except (Error Hash) T × GcsState Hash :=
  match downloadCompressed P link hash st with
  | .error e => (.error e, st)
  | .ok none => (.error (.notFound hash), st)
  | .ok (some (bytes, compressed)) =>
    match map bytes with
    | .error e => (.error e, st)
    | .ok value =>
      (.ok value, { st with cache := (cacheWriteCompressed P fault hash compressed st.cache).2 })

/-- A cached object that cannot be read or fails its check is evicted, and the bucket
is asked. -/
def fetchMap {T : Type} (link : Link) (fault : Option CacheFault) (hash : Hash)
    (map : Bytes → Except (Error Hash) T) (st : GcsState Hash) :
    Except (Error Hash) T × GcsState Hash :=
  if (st.cache (pathFor P hash)).isSome then
    match cacheRead P hash st.cache with
    | some cached =>
      match map cached with
      | .ok value => (.ok value, st)
      | .error _ => refetch P link fault hash map { st with cache := evictCacheEntry P hash st.cache }
    | none => refetch P link fault hash map { st with cache := evictCacheEntry P hash st.cache }
  else refetch P link fault hash map st

def remoteExists (link : Link) (hash : Hash) (st : GcsState Hash) : Bool :=
  link = .up ∧ (st.bucket hash).isSome

def get (link : Link) (fault : Option CacheFault) (hash : Hash) (st : GcsState Hash) :
    Except (Error Hash) (Object Hash) × GcsState Hash :=
  fetchMap P link fault hash (fun bytes =>
    match (P.fromSlice bytes).bind (Object.fromJson P) with
    | none => .error .serialize
    | some object => do
      checkIntegrity hash (object.hash P)
      return object) st

def getRaw (link : Link) (fault : Option CacheFault) (hash : Hash) (st : GcsState Hash) :
    Except (Error Hash) Bytes × GcsState Hash :=
  fetchMap P link fault hash (fun bytes => do
    checkIntegrity hash (P.of bytes)
    return bytes) st

def has (link : Link) (hash : Hash) (st : GcsState Hash) : Bool :=
  (st.cache (pathFor P hash)).isSome || remoteExists link hash st

/-- The cache write and the upload of a put. -/
def persist (faults : PutFaults) (hash : Hash) (compressed : Bytes) (st : GcsState Hash) :
    Except (Error Hash) Hash × GcsState Hash :=
  match cacheWriteCompressed P faults.cache hash compressed st.cache with
  | (.error e, cache) => (.error e, { st with cache })
  | (.ok _, cache) =>
    match faults.upload with
    | some cause =>
      (.error (.other cause), { st with cache := Function.update cache (pathFor P hash) none })
    | none => (.ok hash, { cache, bucket := Function.update st.bucket hash (some compressed) })

variable (S : GcsObjectStore Hash)

def putWithPolicy (faults : PutFaults) (object : Object Hash) (policy : ScanPolicy)
    (st : GcsState Hash) : Except (Error Hash) Hash × GcsState Hash :=
  let hits := match object with
    | .blob blob => S.scanner.scanWith blob.bytes policy
    | _ => []
  if hits ≠ [] ∧ object.hash P ∉ S.allowlist then (.error (.secretDetected hits), st)
  else
    let bytes := P.toVec (object.toJson P)
    persist P faults (object.hash P) (P.encodeAll bytes) st

def put (faults : PutFaults) (object : Object Hash) (st : GcsState Hash) :
    Except (Error Hash) Hash × GcsState Hash :=
  S.putWithPolicy P faults object {} st

def putRaw (faults : PutFaults) (_kind : ObjectKind) (bytes : Bytes) (st : GcsState Hash) :
    Except (Error Hash) Hash × GcsState Hash :=
  let hits := S.scanner.scan bytes
  if hits ≠ [] ∧ P.of bytes ∉ S.allowlist then (.error (.secretDetected hits), st)
  else persist P faults (P.of bytes) (P.encodeAll bytes) st

/- A put of any kind. -/

inductive Put (Hash : Type) where
  | put (object : Object Hash)
  | withPolicy (object : Object Hash) (policy : ScanPolicy)
  | raw (kind : ObjectKind) (bytes : Bytes)

namespace Put

def run (call : Put Hash) (faults : PutFaults) (st : GcsState Hash) :
    Except (Error Hash) Hash × GcsState Hash :=
  match call with
  | .put object => S.put P faults object st
  | .withPolicy object policy => S.putWithPolicy P faults object policy st
  | .raw kind bytes => S.putRaw P faults kind bytes st

omit [DecidableEq Hash] in
/-- The address, and the bytes that are compressed. -/
def content : Put Hash → Hash × Bytes
  | .put object | .withPolicy object _ => (object.hash P, P.toVec (object.toJson P))
  | .raw _ bytes => (P.of bytes, bytes)

omit [DecidableEq Hash] in
def hits : Put Hash → List Hit
  | .put (.blob blob) => S.scanner.scanWith blob.bytes {}
  | .withPolicy (.blob blob) policy => S.scanner.scanWith blob.bytes policy
  | .raw _ bytes => S.scanner.scan bytes
  | _ => []

/-- The scanner finds a secret that the allowlist does not let through. -/
def Refused (call : Put Hash) : Prop := call.hits S ≠ [] ∧ (call.content P).1 ∉ S.allowlist

instance (call : Put Hash) : Decidable (call.Refused P S) := inferInstanceAs (Decidable (_ ∧ _))

theorem run_eq (call : Put Hash) (faults : PutFaults) (st : GcsState Hash) :
    call.run P S faults st =
      if call.Refused P S then (.error (.secretDetected (call.hits S)), st)
      else persist P faults (call.content P).1 (P.encodeAll (call.content P).2) st := by
  cases call with
  | put object => cases object <;> rfl
  | withPolicy object policy => cases object <;> rfl
  | raw kind bytes => rfl

end Put

/- What the reads depend on. -/

omit [DecidableEq Hash] in
theorem tmp_ne_path (hash other : Hash) :
    pathFor P other ≠ (pathFor P hash).withExtension "tmp" := by
  intro same
  have extension := congrArg ObjectPath.extension same
  simp [pathFor, ObjectPath.withExtension] at extension

omit [DecidableEq Hash] in
theorem slots_tmp (hash : Hash) (content : Option Bytes) (cache : Files) :
    slots P (Function.update cache ((pathFor P hash).withExtension "tmp") content) = slots P cache := by
  funext other
  exact Function.update_of_ne (tmp_ne_path P hash other) _ _

omit [DecidableEq Hash] in
theorem slots_path (hash : Hash) (content : Option Bytes) (cache : Files) [DecidableEq Hash] :
    slots P (Function.update cache (pathFor P hash) content) =
      Function.update (slots P cache) hash content := by
  funext other
  by_cases here : other = hash
  · subst here
    simp [slots]
  · have apart : pathFor P other ≠ pathFor P hash := fun same => here (pathFor_injective P same)
    simp [slots, here, apart]

theorem slots_cacheWriteCompressed (fault : Option CacheFault) (hash : Hash) (compressed : Bytes)
    (cache : Files) :
    (∃ e, (cacheWriteCompressed P fault hash compressed cache).1 = .error e ∧ fault.isSome ∧
        slots P (cacheWriteCompressed P fault hash compressed cache).2 = slots P cache) ∨
      (cacheWriteCompressed P fault hash compressed cache).1 = .ok () ∧ fault = none ∧
        slots P (cacheWriteCompressed P fault hash compressed cache).2 =
          Function.update (slots P cache) hash (some compressed) := by
  cases fault with
  | none =>
    refine Or.inr ⟨rfl, rfl, ?_⟩
    simp only [cacheWriteCompressed, slots_path, slots_tmp, Function.update_self]
  | some fault =>
    refine Or.inl ⟨.io, ?_, rfl, ?_⟩
    · cases fault <;> rfl
    · cases fault with
      | createDir => rfl
      | write left => exact slots_tmp P hash left cache
      | rename => exact slots_tmp P hash _ cache

def SameContents (st st' : GcsState Hash) : Prop :=
  slots P st.cache = slots P st'.cache ∧ st.bucket = st'.bucket

/-- Every read gives the same answer, whether or not the bucket can be reached. -/
def SameAnswers (st st' : GcsState Hash) : Prop :=
  ∀ link fault hash,
    (get P link fault hash st).1 = (get P link fault hash st').1 ∧
      (getRaw P link fault hash st).1 = (getRaw P link fault hash st').1 ∧
      has P link hash st = has P link hash st'

omit [DecidableEq Hash] in
theorem refetch_congr {T : Type} (st st' : GcsState Hash) (bucket : st.bucket = st'.bucket)
    (link : Link) (fault : Option CacheFault) (hash : Hash) (map : Bytes → Except (Error Hash) T) :
    (refetch P link fault hash map st).1 = (refetch P link fault hash map st').1 := by
  have remote : downloadCompressed P link hash st = downloadCompressed P link hash st' := by
    simp only [downloadCompressed, bucket]
  simp only [refetch, remote]
  rcases downloadCompressed P link hash st' with e | _ | ⟨bytes, compressed⟩
  · rfl
  · rfl
  · cases mapped : map bytes <;> simp only [mapped]

omit [DecidableEq Hash] in
theorem fetchMap_congr {T : Type} {st st' : GcsState Hash} (same : SameContents P st st')
    (link : Link) (fault : Option CacheFault) (hash : Hash) (map : Bytes → Except (Error Hash) T) :
    (fetchMap P link fault hash map st).1 = (fetchMap P link fault hash map st').1 := by
  obtain ⟨cached, bucket⟩ := same
  have slot : st.cache (pathFor P hash) = st'.cache (pathFor P hash) := congrFun cached hash
  have evicted :
      (refetch P link fault hash map { st with cache := evictCacheEntry P hash st.cache }).1 =
        (refetch P link fault hash map { st' with cache := evictCacheEntry P hash st'.cache }).1 :=
    refetch_congr P ⟨evictCacheEntry P hash st.cache, st.bucket⟩
      ⟨evictCacheEntry P hash st'.cache, st'.bucket⟩ bucket link fault hash map
  simp only [fetchMap, cacheRead, slot]
  split
  · cases (st'.cache (pathFor P hash)).bind P.decodeAll with
    | none => exact evicted
    | some cached =>
      cases checked : map cached with
      | ok value => simp only [checked]
      | error e => simpa only [checked] using evicted
  · exact refetch_congr P st st' bucket link fault hash map

theorem SameContents.answers {st st' : GcsState Hash} (same : SameContents P st st') :
    SameAnswers P st st' := by
  intro link fault hash
  have slot : st.cache (pathFor P hash) = st'.cache (pathFor P hash) := congrFun same.1 hash
  refine ⟨fetchMap_congr P same link fault hash _, fetchMap_congr P same link fault hash _, ?_⟩
  simp only [has, remoteExists, slot, same.2]

theorem persist_failed {faults : PutFaults} {hash : Hash} {compressed : Bytes} {st : GcsState Hash}
    {e : Error Hash} (failed : (persist P faults hash compressed st).1 = .error e) :
    faults.cache.isSome ∧ SameContents P st (persist P faults hash compressed st).2 ∨
      faults.cache = none ∧ (persist P faults hash compressed st).2.bucket = st.bucket ∧
        slots P (persist P faults hash compressed st).2.cache =
          Function.update (slots P st.cache) hash none := by
  rcases slots_cacheWriteCompressed P faults.cache hash compressed st.cache with
    ⟨cause, result, faulty, kept⟩ | ⟨result, sound, filled⟩
  · refine Or.inl ⟨faulty, ?_⟩
    rcases written : cacheWriteCompressed P faults.cache hash compressed st.cache with ⟨r, cache⟩
    rw [written] at result kept
    cases result
    simp only [persist, written]
    exact ⟨kept.symm, rfl⟩
  · refine Or.inr ⟨sound, ?_⟩
    rcases written : cacheWriteCompressed P faults.cache hash compressed st.cache with ⟨r, cache⟩
    rw [written] at result filled
    cases result
    cases upload : faults.upload with
    | none =>
      simp only [persist, written, upload] at failed
      cases failed
    | some cause =>
      simp only [persist, written, upload, slots_path]
      exact ⟨trivial, by rw [filled, Function.update_idem]⟩

/-- A failed put leaves the answers of all reads as they were exactly when it was refused
by the scanner, failed in the cache, or had no slot in the cache before. -/
theorem failed_put_iff (S : GcsObjectStore Hash) (call : Put Hash) (faults : PutFaults)
    (st : GcsState Hash) {e : Error Hash} (failed : (call.run P S faults st).1 = .error e) :
    SameAnswers P st (call.run P S faults st).2 ↔
      call.Refused P S ∨ faults.cache.isSome ∨ st.cache (pathFor P (call.content P).1) = none := by
  rw [call.run_eq] at failed ⊢
  by_cases refused : call.Refused P S
  · simp only [refused, true_or, iff_true]
    exact SameContents.answers P ⟨rfl, rfl⟩
  · simp only [if_neg refused] at failed ⊢
    rcases persist_failed P failed with ⟨faulty, same⟩ | ⟨sound, bucket, removed⟩
    · simp only [faulty, true_or, or_true, iff_true]
      exact same.answers P
    · simp only [refused, sound, Option.isSome_none, Bool.false_eq_true, false_or]
      constructor
      · intro same
        -- with the bucket out of reach only the cache answers
        have offline := (same (.down "") none (call.content P).1).2.2
        have gone := congrFun removed (call.content P).1
        rw [Function.update_self] at gone
        simp only [slots] at gone
        simpa [has, remoteExists, gone] using offline
      · intro vacant
        refine SameContents.answers P ⟨?_, bucket.symm⟩
        have slot : slots P st.cache (call.content P).1 = none := vacant
        rw [removed, ← slot, Function.update_eq_self]

end

/-- A bucket that refuses an upload, and nothing in the cache. -/
theorem failed_put_iff_vacant :
    let S : GcsObjectStore Bytes := { scanner := .silent, allowlist := [] }
    let st : GcsState Bytes := { cache := fun _ => none, bucket := fun _ => none }
    let call : Put Bytes := .raw .segment [1]
    SameAnswers Platform.sample st (call.run Platform.sample S { upload := some "503" } st).2 := by
  intro S st call
  have failed : (call.run Platform.sample S { upload := some "503" } st).1 = .error (.other "503") := by
    rw [call.run_eq, if_neg]
    · rfl
    · rintro ⟨found, _⟩
      exact found (Scanner.scanWith_silent [1] {})
  exact (failed_put_iff Platform.sample S call { upload := some "503" } st failed).mpr
    (Or.inr (Or.inr rfl))

/-- An object is cached and put again, and the upload fails. -/
theorem failed_put_not_always_same :
    ¬ ∀ (S : GcsObjectStore Bytes) (call : Put Bytes) (faults : PutFaults) (st : GcsState Bytes)
      (e : Error Bytes), (call.run Platform.sample S faults st).1 = .error e →
      SameAnswers Platform.sample st (call.run Platform.sample S faults st).2 := by
  intro always
  let S : GcsObjectStore Bytes := { scanner := .silent, allowlist := [] }
  let call : Put Bytes := .raw .segment [1]
  let cached : GcsState Bytes :=
    { cache := Function.update (fun _ => none) (pathFor Platform.sample [1]) (some [1])
      bucket := fun _ => none }
  have persisted : call.run Platform.sample S { upload := some "503" } cached =
      persist Platform.sample { upload := some "503" } [1] [1] cached := by
    rw [call.run_eq, if_neg]
    · rfl
    · rintro ⟨found, _⟩
      exact found (Scanner.scanWith_silent [1] {})
  have same := always S call { upload := some "503" } cached (.other "503") (by rw [persisted]; rfl)
  rw [persisted] at same
  have offline := (same (.down "") none [1]).2.2
  simp [has, remoteExists, persist, cacheWriteCompressed, cached] at offline

end GcsObjectStore

end GitAgentic
