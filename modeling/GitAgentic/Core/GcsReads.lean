import GitAgentic.Core.GcsStore
import GitAgentic.Data.Runs

/-! Reads through the cache of the bucket store, one after another. A read answers from a cache
slot that passes its own check; otherwise it evicts the slot and fills it from the bucket. -/
namespace GitAgentic.GcsObjectStore

variable {Hash : Type} (P : Platform Hash) [DecidableEq Hash]

inductive ReadKind where
  | get
  | getRaw
  deriving DecidableEq

/-- A read of a hash, and whether the bucket answers while it runs. -/
structure ReadCall (Hash : Type) where
  kind : ReadKind
  hash : Hash
  link : Link

def Passes (hash : Hash) (bytes : Bytes) : ReadKind → Prop
  | .get => ∃ o : Object Hash, (P.fromSlice bytes).bind (Object.fromJson P) = some o ∧ o.hash P = hash
  | .getRaw => P.of bytes = hash

/-- A compressed file that decodes to bytes that pass. -/
def Intact (hash : Hash) (kind : ReadKind) (compressed : Bytes) : Prop :=
  ∃ bytes, P.decodeAll compressed = some bytes ∧ Passes P hash bytes kind

/-- The state after a read, where no write to the cache fails. -/
def ReadCall.step (st : GcsState Hash) (call : ReadCall Hash) : GcsState Hash :=
  match call.kind with
  | .get => (GcsObjectStore.get P call.link none call.hash st).2
  | .getRaw => (GcsObjectStore.getRaw P call.link none call.hash st).2

/-- The slot holds something that decodes and passes. -/
def CacheIntact (hash : Hash) (kind : ReadKind) (st : GcsState Hash) : Prop :=
  ∃ compressed, st.cache (pathFor P hash) = some compressed ∧ Intact P hash kind compressed

/-- What one read does to the two copies. -/
structure Heals (kind : ReadKind) (link : Link) (hash : Hash) (st st' : GcsState Hash) : Prop where
  bucket : st'.bucket = st.bucket
  others : ∀ path, path ≠ pathFor P hash → path ≠ (pathFor P hash).withExtension "tmp" →
    st'.cache path = st.cache path
  tmp : st'.cache ((pathFor P hash).withExtension "tmp") = st.cache ((pathFor P hash).withExtension "tmp") ∨
    st'.cache ((pathFor P hash).withExtension "tmp") = none
  /-- A slot that passes is kept as it is; any other is gone, or is what the bucket holds, and
  that passes. -/
  kept : CacheIntact P hash kind st → st' = st
  filled : ¬ CacheIntact P hash kind st → st'.cache (pathFor P hash) = none ∨
    ∃ compressed, link = .up ∧ st.bucket hash = some compressed ∧ Intact P hash kind compressed ∧
      st'.cache (pathFor P hash) = some compressed

section

variable {T : Type} {map : Bytes → Except (Error Hash) T} {link : Link} {hash : Hash} {st : GcsState Hash}

def Reads (map : Bytes → Except (Error Hash) T) (compressed : Bytes) (value : T) : Prop :=
  ∃ bytes, P.decodeAll compressed = some bytes ∧ map bytes = .ok value

def Hit (hash : Hash) (map : Bytes → Except (Error Hash) T) (st : GcsState Hash) : Prop :=
  ∃ compressed value, st.cache (pathFor P hash) = some compressed ∧ Reads P map compressed value

/-- The outcomes of a read whose check is `map`. -/
inductive Fetched (link : Link) (hash : Hash) (map : Bytes → Except (Error Hash) T) (st : GcsState Hash) :
    Except (Error Hash) T × GcsState Hash → Prop where
  | cached {compressed : Bytes} {value : T} : st.cache (pathFor P hash) = some compressed →
      Reads P map compressed value → Fetched link hash map st (.ok value, st)
  | missed {e : Error Hash} : ¬ Hit P hash map st →
      (link = .up → ∀ compressed value, st.bucket hash = some compressed → ¬ Reads P map compressed value) →
      Fetched link hash map st (.error e, { st with cache := evictCacheEntry P hash st.cache })
  | fetched {compressed : Bytes} {value : T} : ¬ Hit P hash map st → link = .up →
      st.bucket hash = some compressed → Reads P map compressed value →
      Fetched link hash map st (.ok value, { st with
        cache := (cacheWriteCompressed P none hash compressed (evictCacheEntry P hash st.cache)).2 })

variable {P}

omit [DecidableEq Hash] in
theorem evict_vacant {cache : Files} (vacant : cache (pathFor P hash) = none) :
    evictCacheEntry P hash cache = cache := by
  rw [evictCacheEntry, ← vacant, Function.update_eq_self]

omit [DecidableEq Hash] in
theorem refetch_fetched (miss : ¬ Hit P hash map st) :
    Fetched P link hash map st
      (refetch P link none hash map { st with cache := evictCacheEntry P hash st.cache }) := by
  cases link with
  | down cause => exact .missed miss nofun
  | up =>
    simp only [refetch, downloadCompressed]
    cases held : st.bucket hash with
    | none =>
      refine .missed miss (fun _ compressed value found => ?_)
      rw [held] at found
      cases found
    | some compressed =>
      dsimp only
      cases decoded : P.decodeAll compressed with
      | none =>
        refine .missed miss (fun _ other value found => ?_)
        rw [held] at found
        cases found
        rintro ⟨bytes, whole, _⟩
        rw [decoded] at whole
        cases whole
      | some bytes =>
        dsimp only
        cases mapped : map bytes with
        | error e =>
          refine .missed miss (fun _ other value found => ?_)
          rw [held] at found
          cases found
          rintro ⟨bytes', whole, passed⟩
          rw [decoded] at whole
          cases whole
          rw [mapped] at passed
          cases passed
        | ok value => exact .fetched miss rfl held ⟨bytes, decoded, mapped⟩

omit [DecidableEq Hash] in
theorem fetchMap_fetched (link : Link) (hash : Hash) (map : Bytes → Except (Error Hash) T)
    (st : GcsState Hash) : Fetched P link hash map st (fetchMap P link none hash map st) := by
  cases slot : st.cache (pathFor P hash) with
  | none =>
    have miss : ¬ Hit P hash map st := by
      rintro ⟨compressed, value, found, _⟩
      rw [slot] at found
      cases found
    have refetched : Fetched P link hash map st _ := refetch_fetched miss
    rw [evict_vacant slot] at refetched
    simpa only [fetchMap, slot, Option.isSome_none, Bool.false_eq_true, if_false] using refetched
  | some compressed =>
    have missed : (∀ value, ¬ Reads P map compressed value) → ¬ Hit P hash map st := by
      rintro none ⟨other, value, found, reads⟩
      rw [slot] at found
      cases found
      exact none value reads
    simp only [fetchMap, cacheRead, slot, Option.isSome_some, if_true, Option.bind_some]
    cases decoded : P.decodeAll compressed with
    | none =>
      refine refetch_fetched (missed ?_)
      rintro value ⟨bytes, whole, _⟩
      rw [decoded] at whole
      cases whole
    | some bytes =>
      dsimp only
      cases mapped : map bytes with
      | ok value => exact .cached slot ⟨bytes, decoded, mapped⟩
      | error e =>
        refine refetch_fetched (missed ?_)
        rintro value ⟨bytes', whole, passed⟩
        rw [decoded] at whole
        cases whole
        rw [mapped] at passed
        cases passed

omit [DecidableEq Hash] in
theorem Fetched.reads {r : Except (Error Hash) T × GcsState Hash} (fetched : Fetched P link hash map st r)
    {value : T} (returned : r.1 = .ok value) : ∃ compressed, Reads P map compressed value := by
  cases fetched with
  | cached _ reads =>
    cases returned
    exact ⟨_, reads⟩
  | missed => cases returned
  | fetched _ _ _ reads =>
    cases returned
    exact ⟨_, reads⟩

omit [DecidableEq Hash] in
theorem Fetched.recovers {r : Except (Error Hash) T × GcsState Hash} (fetched : Fetched P link hash map st r)
    {compressed : Bytes} {value : T} (up : link = .up) (held : st.bucket hash = some compressed)
    (reads : Reads P map compressed value) : r.1 = .ok value ∨ ∃ cached found,
      st.cache (pathFor P hash) = some cached ∧ Reads P map cached found ∧ r.1 = .ok found := by
  cases fetched with
  | cached slot found => exact Or.inr ⟨_, _, slot, found, rfl⟩
  | missed _ none => exact absurd reads (none up compressed value held)
  | @fetched other found _ _ held' reads' =>
    rw [held] at held'
    cases held'
    obtain ⟨bytes, decoded, mapped⟩ := reads
    obtain ⟨bytes', decoded', mapped'⟩ := reads'
    rw [decoded] at decoded'
    cases decoded'
    rw [mapped] at mapped'
    cases mapped'
    exact Or.inl rfl

omit [DecidableEq Hash] in
theorem Fetched.heals {r : Except (Error Hash) T × GcsState Hash} {kind : ReadKind}
    (fetched : Fetched P link hash map st r)
    (intact : ∀ compressed, Intact P hash kind compressed ↔ ∃ value, Reads P map compressed value) :
    Heals P kind link hash st r.2 := by
  have hit : CacheIntact P hash kind st ↔ Hit P hash map st := by
    constructor
    · rintro ⟨compressed, slot, whole⟩
      obtain ⟨value, reads⟩ := (intact compressed).mp whole
      exact ⟨compressed, value, slot, reads⟩
    · rintro ⟨compressed, value, slot, reads⟩
      exact ⟨compressed, slot, (intact compressed).mpr ⟨value, reads⟩⟩
  have evicted : ∀ path, path ≠ pathFor P hash → evictCacheEntry P hash st.cache path = st.cache path :=
    fun path other => Function.update_of_ne other _ _
  cases fetched with
  | cached slot reads =>
    exact ⟨rfl, fun _ _ _ => rfl, Or.inl rfl, fun _ => rfl,
      fun miss => absurd (hit.mpr ⟨_, _, slot, reads⟩) miss⟩
  | missed miss _ =>
    refine ⟨rfl, fun path other _ => evicted path other, Or.inl (evicted _ (tmp_ne_path P hash hash).symm),
      fun whole => absurd (hit.mp whole) miss, fun _ => Or.inl ?_⟩
    exact Function.update_self ..
  | @fetched compressed value miss up held reads =>
    have tmp : (pathFor P hash).withExtension "tmp" ≠ pathFor P hash := (tmp_ne_path P hash hash).symm
    refine ⟨rfl, fun path other beside => ?_, Or.inr ?_, fun whole => absurd (hit.mp whole) miss,
      fun _ => Or.inr ⟨compressed, up, held, (intact compressed).mpr ⟨value, reads⟩, ?_⟩⟩
    · simp only [cacheWriteCompressed, Function.update_of_ne other, Function.update_of_ne beside]
      exact evicted path other
    · simp only [cacheWriteCompressed, Function.update_of_ne tmp, Function.update_self]
    · simp only [cacheWriteCompressed, Function.update_self]

end

section

variable (hash : Hash)

/-- The check of `get`. -/
def readObject (bytes : Bytes) : Except (Error Hash) (Object Hash) :=
  match (P.fromSlice bytes).bind (Object.fromJson P) with
  | none => .error .serialize
  | some object => do
    checkIntegrity hash (object.hash P)
    return object

/-- The check of `get_raw`. -/
def readRaw (bytes : Bytes) : Except (Error Hash) Bytes := do
  checkIntegrity hash (P.of bytes)
  return bytes

variable {P} {hash}

theorem readObject_eq_ok_iff {bytes : Bytes} {o : Object Hash} :
    readObject P hash bytes = .ok o ↔
      (P.fromSlice bytes).bind (Object.fromJson P) = some o ∧ o.hash P = hash := by
  unfold readObject
  cases (P.fromSlice bytes).bind (Object.fromJson P) with
  | none => simp
  | some found =>
    simp only [checked_eq_ok_iff, Option.some.injEq]
    constructor
    · rintro ⟨rfl, same⟩
      exact ⟨rfl, same⟩
    · rintro ⟨rfl, same⟩
      exact ⟨rfl, same⟩

theorem readRaw_eq_ok_iff {bytes found : Bytes} :
    readRaw P hash bytes = .ok found ↔ bytes = found ∧ P.of bytes = hash := checked_eq_ok_iff _ _ _ _

theorem get_fetched (link : Link) (hash : Hash) (st : GcsState Hash) :
    Fetched P link hash (readObject P hash) st (GcsObjectStore.get P link none hash st) :=
  fetchMap_fetched link hash _ st

theorem getRaw_fetched (link : Link) (hash : Hash) (st : GcsState Hash) :
    Fetched P link hash (readRaw P hash) st (GcsObjectStore.getRaw P link none hash st) :=
  fetchMap_fetched link hash _ st

theorem intact_get (compressed : Bytes) :
    Intact P hash .get compressed ↔ ∃ o, Reads P (readObject P hash) compressed o := by
  constructor
  · rintro ⟨bytes, decoded, o, parsed, same⟩
    exact ⟨o, bytes, decoded, readObject_eq_ok_iff.mpr ⟨parsed, same⟩⟩
  · rintro ⟨o, bytes, decoded, read⟩
    exact ⟨bytes, decoded, o, readObject_eq_ok_iff.mp read⟩

theorem intact_getRaw (compressed : Bytes) :
    Intact P hash .getRaw compressed ↔ ∃ bytes, Reads P (readRaw P hash) compressed bytes := by
  constructor
  · rintro ⟨bytes, decoded, same⟩
    exact ⟨bytes, bytes, decoded, readRaw_eq_ok_iff.mpr ⟨rfl, same⟩⟩
  · rintro ⟨_, bytes, decoded, read⟩
    exact ⟨bytes, decoded, (readRaw_eq_ok_iff.mp read).2⟩

theorem heals_step (st : GcsState Hash) (call : ReadCall Hash) :
    Heals P call.kind call.link call.hash st (call.step P st) := by
  obtain ⟨kind, hash, link⟩ := call
  cases kind with
  | get => exact (get_fetched link hash st).heals intact_get
  | getRaw => exact (getRaw_fetched link hash st).heals intact_getRaw

variable (P) in
/-- The compressed file is that of an object of the hash. -/
def HoldsObject (hash : Hash) (compressed : Bytes) (o : Object Hash) : Prop :=
  Reads P (readObject P hash) compressed o

variable (P) in
/-- What a read in this state returns. -/
structure Answers (hash : Hash) (st : GcsState Hash) (link : Link) : Prop where
  get : ∀ o, (GcsObjectStore.get P link none hash st).1 = .ok o → o.hash P = hash
  getRaw : ∀ bytes, (GcsObjectStore.getRaw P link none hash st).1 = .ok bytes → P.of bytes = hash
  /-- With the object in reach it is returned, unless the cache answers with an object of another
  kind that has the same hash. -/
  object : ∀ compressed o, link = .up → st.bucket hash = some compressed → HoldsObject P hash compressed o →
    (GcsObjectStore.get P link none hash st).1 = .ok o ∨ ∃ cached o', o'.kind ≠ o.kind ∧
      st.cache (pathFor P hash) = some cached ∧ HoldsObject P hash cached o' ∧
      (GcsObjectStore.get P link none hash st).1 = .ok o'
  raw : ∀ compressed bytes, link = .up → st.bucket hash = some compressed →
    P.decodeAll compressed = some bytes → P.of bytes = hash →
    (GcsObjectStore.getRaw P link none hash st).1 = .ok bytes

theorem answers_read (hash : Hash) (st : GcsState Hash) (link : Link) : Answers P hash st link := by
  refine ⟨fun o returned => ?_, fun bytes returned => ?_, fun compressed o up held holds => ?_,
    fun compressed bytes up held decoded same => ?_⟩
  · obtain ⟨_, _, _, read⟩ := (get_fetched link hash st).reads returned
    exact (readObject_eq_ok_iff.mp read).2
  · obtain ⟨_, _, _, read⟩ := (getRaw_fetched link hash st).reads returned
    obtain ⟨rfl, address⟩ := readRaw_eq_ok_iff.mp read
    exact address
  · rcases (get_fetched link hash st).recovers up held holds with returned | ⟨cached, o', slot, found, returned⟩
    · exact Or.inl returned
    · by_cases kind : o'.kind = o.kind
      · obtain ⟨_, _, read⟩ := holds
        obtain ⟨_, _, read'⟩ := found
        have address := (readObject_eq_ok_iff.mp read').2.trans (readObject_eq_ok_iff.mp read).2.symm
        rw [Object.preimage_inj P kind (P.of_injective address)] at returned
        exact Or.inl returned
      · exact Or.inr ⟨cached, o', kind, slot, found, returned⟩
  · have reads : Reads P (readRaw P hash) compressed bytes :=
      ⟨bytes, decoded, readRaw_eq_ok_iff.mpr ⟨rfl, same⟩⟩
    rcases (getRaw_fetched link hash st).recovers up held reads with returned | ⟨_, other, _, found, returned⟩
    · exact returned
    · obtain ⟨_, _, read⟩ := found
      obtain ⟨rfl, address⟩ := readRaw_eq_ok_iff.mp read
      rw [returned, P.of_injective (address.trans same.symm)]

variable (P) in
/-- What a run of reads has left: the bucket as it was, and in every slot what was there at the
start, or nothing, or what the bucket holds and one of the reads has checked. -/
structure Left (calls : List (ReadCall Hash)) (st s : GcsState Hash) : Prop where
  bucket : s.bucket = st.bucket
  slots : ∀ hash, s.cache (pathFor P hash) = st.cache (pathFor P hash) ∨ s.cache (pathFor P hash) = none ∨
    ∃ call ∈ calls, call.hash = hash ∧ ∃ compressed, st.bucket hash = some compressed ∧
      Intact P hash call.kind compressed ∧ s.cache (pathFor P hash) = some compressed

theorem left_step {calls : List (ReadCall Hash)} {st s : GcsState Hash} (left : Left P calls st s)
    (call : ReadCall Hash) : Left P (calls ++ [call]) st (call.step P s) := by
  have heals := heals_step (P := P) s call
  have before : ∀ hash, (∃ call ∈ calls, call.hash = hash ∧ ∃ compressed, st.bucket hash = some compressed ∧
      Intact P hash call.kind compressed ∧ s.cache (pathFor P hash) = some compressed) →
      ∃ call' ∈ calls ++ [call], call'.hash = hash ∧ ∃ compressed, st.bucket hash = some compressed ∧
      Intact P hash call'.kind compressed ∧ s.cache (pathFor P hash) = some compressed :=
    fun hash ⟨other, mem, rest⟩ => ⟨other, List.mem_append_left _ mem, rest⟩
  refine ⟨heals.bucket.trans left.bucket, fun hash => ?_⟩
  by_cases same : s.cache (pathFor P hash) = (call.step P s).cache (pathFor P hash)
  · rw [← same]
    exact (left.slots hash).imp_right (Or.imp_right (before hash))
  · have here : hash = call.hash := by
      by_contra other
      exact same (heals.others _ (fun path => other (pathFor_injective P path)) (tmp_ne_path P _ _)).symm
    subst here
    have miss : ¬ CacheIntact P call.hash call.kind s := fun whole => same (by rw [heals.kept whole])
    rcases heals.filled miss with gone | ⟨compressed, _, held, whole, slot⟩
    · exact Or.inr (Or.inl gone)
    · rw [left.bucket] at held
      exact Or.inr (Or.inr ⟨call, by simp, rfl, compressed, held, whole, slot⟩)

theorem left_run (calls : List (ReadCall Hash)) (st : GcsState Hash) :
    Left P calls st (Runs.run (ReadCall.step P) calls st) := by
  induction calls using List.reverseRecOn with
  | nil => exact ⟨rfl, fun _ => Or.inl rfl⟩
  | append_singleton calls call ih =>
    rw [Runs.run_append]
    exact left_step ih call

variable (P) in
/-- Every read of every sequence, whatever the two copies held at the start. -/
theorem reads_heal (calls : List (ReadCall Hash)) (st : GcsState Hash) :
    (∀ before call rest, calls = before ++ call :: rest →
      let s := Runs.run (ReadCall.step P) before st
      Answers P call.hash s call.link ∧ Heals P call.kind call.link call.hash s (call.step P s)) ∧
    Left P calls st (Runs.run (ReadCall.step P) calls st) :=
  ⟨fun _ call _ _ => ⟨answers_read _ _ _, heals_step _ call⟩, left_run calls st⟩

theorem holdsObject_stored (o : Object Hash) :
    HoldsObject P (o.hash P) (P.encodeAll (P.toVec (o.toJson P))) o :=
  ⟨_, P.decodeAll_encodeAll _, readObject_eq_ok_iff.mpr
    ⟨by rw [P.fromSlice_toVec, Option.bind_some, o.fromJson_toJson P], rfl⟩⟩

theorem get_cached {link : Link} {hash : Hash} {st : GcsState Hash} {compressed : Bytes} {o : Object Hash}
    (slot : st.cache (pathFor P hash) = some compressed) (holds : HoldsObject P hash compressed o) :
    GcsObjectStore.get P link none hash st = (.ok o, st) := by
  obtain ⟨bytes, decoded, read⟩ := holds
  have mapped : readObject P hash bytes = .ok o := read
  show fetchMap P link none hash (readObject P hash) st = _
  simp only [fetchMap, cacheRead, slot, Option.isSome_some, if_true, Option.bind_some, decoded, mapped]

end

/-- The empty tree in the cache, and in the bucket the blob of the bytes that the tree hashes. -/
theorem reads_heal_not_bucket :
    ¬ ∀ (hash : Bytes) (st : GcsState Bytes) (link : Link) (compressed : Bytes) (o : Object Bytes),
      link = .up → st.bucket hash = some compressed → HoldsObject Platform.sample hash compressed o →
      (GcsObjectStore.get Platform.sample link none hash st).1 = .ok o := by
  intro always
  let tree : Object Bytes := .tree { entries := BTreeMap.empty }
  let blob : Object Bytes := .blob { bytes := tree.preimage Platform.sample }
  let stored (o : Object Bytes) : Bytes := Platform.sample.encodeAll (Platform.sample.toVec (o.toJson Platform.sample))
  let st : GcsState Bytes :=
    { cache := Function.update (fun _ => none) (pathFor Platform.sample (tree.hash Platform.sample)) (some (stored tree))
      bucket := fun _ => some (stored blob) }
  have cached : st.cache (pathFor Platform.sample (tree.hash Platform.sample)) = some (stored tree) := by
    dsimp only [st]
    exact Function.update_self _ _ _
  have same : blob.hash Platform.sample = tree.hash Platform.sample := rfl
  have remote : HoldsObject Platform.sample (tree.hash Platform.sample) (stored blob) blob :=
    same ▸ holdsObject_stored blob
  have returned := always (tree.hash Platform.sample) st .up (stored blob) blob rfl rfl remote
  rw [get_cached cached (holdsObject_stored tree)] at returned
  have kinds := congrArg Object.kind (Except.ok.inj returned)
  cases kinds

end GitAgentic.GcsObjectStore
