import GitAgentic.Core.GcsReads
import GitAgentic.Core.Scanned
import GitAgentic.Data.Overwrite

/-! The two object stores under the same calls. A caller that knows the trait only cannot tell one
from the other, whatever becomes of the cache, as long as no address is given two contents. -/
namespace GitAgentic

/-- A call of the trait `ObjectStore`. -/
inductive Ask (Hash : Type) where
  | put (call : Call Hash)
  | get (hash : Hash)
  | getRaw (hash : Hash)
  | has (hash : Hash)

/-- What it returns. -/
inductive Said (Hash : Type) where
  | address (r : Except (Error Hash) Hash)
  | object (r : Except (Error Hash) (Object Hash))
  | bytes (r : Except (Error Hash) Bytes)
  | there (b : Bool)

/-- A call, what has become of the cache by then, and whether a read can write to the cache. -/
structure Visit (Hash : Type) where
  wear : Files → Files
  fault : Option CacheFault
  ask : Ask Hash

section

variable {Hash : Type} [DecidableEq Hash] (P : Platform Hash) (S : GcsObjectStore Hash)

namespace Ask

def onDisk (files : Files) : Ask Hash → Said Hash × Files
  | .put call => (.address (call.exec P S.scanning files).1, (call.exec P S.scanning files).2)
  | .get hash => (.object (GitAgentic.get P files hash), files)
  | .getRaw hash => (.bytes (GitAgentic.getRaw P files hash), files)
  | .has hash => (.there (GitAgentic.has P files hash), files)

/-- The bucket can be reached, and nothing hinders a put. -/
def inBucket (fault : Option CacheFault) (st : GcsState Hash) : Ask Hash → Said Hash × GcsState Hash
  | .put call => (.address (GcsObjectStore.runCall P S call {} st).1, (GcsObjectStore.runCall P S call {} st).2)
  | .get hash =>
    let read := GcsObjectStore.get P .up fault hash st
    (.object read.1, read.2)
  | .getRaw hash =>
    let read := GcsObjectStore.getRaw P .up fault hash st
    (.bytes read.1, read.2)
  | .has hash => (.there (GcsObjectStore.has P .up hash st), st)

omit [DecidableEq Hash] in
def call? : Ask Hash → Option (Call Hash)
  | .put call => some call
  | _ => none

end Ask

namespace Visit

def inBucket (st : GcsState Hash) (v : Visit Hash) : Said Hash × GcsState Hash :=
  v.ask.inBucket P S v.fault { st with cache := v.wear st.cache }

/-- Both stores start empty. -/
def filesAfter (visits : List (Visit Hash)) : Files :=
  visits.foldl (fun files v => (v.ask.onDisk P S files).2) (fun _ => none)

def stateAfter (visits : List (Visit Hash)) : GcsState Hash :=
  visits.foldl (fun st v => (v.inBucket P S st).2) { cache := fun _ => none, bucket := fun _ => none }

def write? (v : Visit Hash) : Option (Hash × Bytes) :=
  v.ask.call?.bind (fun call =>
    if call.Accepted P S.scanning then some (call.hash P, P.encodeAll (call.stored P)) else none)

omit [DecidableEq Hash] in
/-- A cached file stays, or is lost, or is damaged so that no check lets it pass. -/
def Worn (cache cache' : Files) : Prop :=
  ∀ hash, slots P cache' hash = none ∨ slots P cache' hash = slots P cache hash ∨
    (slots P cache hash).isSome ∧ ∀ compressed, slots P cache' hash = some compressed →
      ∀ kind, ¬ GcsObjectStore.Intact P hash kind compressed

/-- What happens to the cache before the call is wear. -/
def Wears (v : Visit Hash) : Prop := ∀ cache, Worn P cache (v.wear cache)

end Visit

end

namespace GcsObjectStore

variable {Hash : Type} [DecidableEq Hash] {P : Platform Hash} {S : GcsObjectStore Hash}

variable (P) in
/-- What is in the cache is in the bucket, or it passes no check and something is in the bucket. -/
def Covered (st : GcsState Hash) : Prop :=
  ∀ hash compressed, slots P st.cache hash = some compressed → st.bucket hash = some compressed ∨
    (st.bucket hash).isSome ∧ ∀ kind, ¬ Intact P hash kind compressed

omit [DecidableEq Hash] in
theorem Covered.wear {st : GcsState Hash} (covered : Covered P st) {cache : Files}
    (worn : Visit.Worn P st.cache cache) : Covered P { st with cache } := by
  intro hash compressed found
  rcases worn hash with gone | same | ⟨there, damaged⟩
  · rw [gone] at found
    cases found
  · exact covered hash compressed (same ▸ found)
  · refine Or.inr ⟨?_, damaged compressed found⟩
    obtain ⟨older, held⟩ := Option.isSome_iff_exists.mp there
    rcases covered hash older held with stored | stored
    · exact Option.isSome_iff_exists.mpr ⟨older, stored⟩
    · exact stored.1

theorem Covered.slot {st : GcsState Hash} (covered : Covered P st) {cache : Files} (hash : Hash)
    (others : ∀ other, other ≠ hash → slots P cache other = slots P st.cache other)
    (here : slots P cache hash = none ∨ slots P cache hash = st.bucket hash) : Covered P { st with cache } := by
  intro other compressed found
  by_cases same : other = hash
  · subst same
    rcases here with gone | filled
    · rw [gone] at found
      cases found
    · exact Or.inl (filled ▸ found)
  · exact covered other compressed (others other same ▸ found)

variable (P) in
def readHeld {T : Type} (content : Option Bytes) (hash : Hash) (map : Bytes → Except (Error Hash) T) :
    Except (Error Hash) T :=
  match content with
  | none => .error (.notFound hash)
  | some compressed =>
    match P.decodeAll compressed with
    | none => .error .io
    | some bytes => map bytes

section

variable {T : Type} {map : Bytes → Except (Error Hash) T} {hash : Hash} {fault : Option CacheFault}

omit [DecidableEq Hash] in
theorem refetch_held (st : GcsState Hash) :
    (refetch P .up fault hash map st).1 = readHeld P (st.bucket hash) hash map := by
  simp only [refetch, downloadCompressed, readHeld]
  cases st.bucket hash with
  | none => rfl
  | some compressed =>
    dsimp only
    cases P.decodeAll compressed with
    | none => rfl
    | some bytes =>
      dsimp only
      cases mapped : map bytes <;> rfl

omit [DecidableEq Hash] in
theorem refetch_covered {st : GcsState Hash} (covered : Covered P st) :
    Covered P (refetch P .up fault hash map st).2 ∧ (refetch P .up fault hash map st).2.bucket = st.bucket := by
  simp only [refetch, downloadCompressed]
  cases held : st.bucket hash with
  | none => exact ⟨covered, rfl⟩
  | some compressed =>
    dsimp only
    cases P.decodeAll compressed with
    | none => exact ⟨covered, rfl⟩
    | some bytes =>
      dsimp only
      cases mapped : map bytes with
      | error e => exact ⟨covered, rfl⟩
      | ok value =>
        refine ⟨?_, rfl⟩
        classical
        rcases slots_cacheWriteCompressed P fault hash compressed st.cache with ⟨_, _, _, kept⟩ | ⟨_, _, filled⟩
        · exact covered.wear (fun other => Or.inr (Or.inl (congrFun kept other)))
        · refine covered.slot hash (fun other apart => ?_) (Or.inr ?_)
          · rw [filled, Function.update_of_ne apart]
          · rw [filled, Function.update_self, held]

theorem evict_covered {st : GcsState Hash} (covered : Covered P st) :
    Covered P { st with cache := evictCacheEntry P hash st.cache } := by
  have slots' : slots P (evictCacheEntry P hash st.cache) = Function.update (slots P st.cache) hash none :=
    slots_path P hash none st.cache
  refine covered.slot hash (fun other apart => ?_) (Or.inl ?_)
  · rw [slots', Function.update_of_ne apart]
  · rw [slots', Function.update_self]

theorem fetchMap_held (kind : ReadKind) {st : GcsState Hash} (covered : Covered P st)
    (passes : ∀ bytes value, map bytes = .ok value → Passes P hash bytes kind) :
    (fetchMap P .up fault hash map st).1 = readHeld P (st.bucket hash) hash map ∧
      Covered P (fetchMap P .up fault hash map st).2 ∧ (fetchMap P .up fault hash map st).2.bucket = st.bucket := by
  have again : ∀ st' : GcsState Hash, st'.bucket = st.bucket → Covered P st' →
      (refetch P .up fault hash map st').1 = readHeld P (st.bucket hash) hash map ∧
        Covered P (refetch P .up fault hash map st').2 ∧ (refetch P .up fault hash map st').2.bucket = st.bucket := by
    intro st' same covered'
    refine ⟨?_, (refetch_covered covered').1, (refetch_covered covered').2.trans same⟩
    rw [refetch_held, same]
  have evicted := again { st with cache := evictCacheEntry P hash st.cache } rfl (evict_covered covered)
  cases slot : st.cache (pathFor P hash) with
  | none =>
    simp only [fetchMap, slot, Option.isSome_none, Bool.false_eq_true, if_false]
    exact again st rfl covered
  | some compressed =>
    simp only [fetchMap, cacheRead, slot, Option.isSome_some, if_true, Option.bind_some]
    cases decoded : P.decodeAll compressed with
    | none => exact evicted
    | some bytes =>
      dsimp only
      cases mapped : map bytes with
      | error e => exact evicted
      | ok value =>
        refine ⟨?_, covered, rfl⟩
        rcases covered hash compressed slot with stored | ⟨_, damaged⟩
        · simp only [readHeld, stored, decoded, mapped]
        · exact absurd ⟨bytes, decoded, passes bytes value mapped⟩ (damaged kind)

end

theorem get_held {st : GcsState Hash} (covered : Covered P st) (fault : Option CacheFault) (hash : Hash) :
    (GcsObjectStore.get P .up fault hash st).1 = readHeld P (st.bucket hash) hash (readObject P hash) ∧
      Covered P (GcsObjectStore.get P .up fault hash st).2 ∧
      (GcsObjectStore.get P .up fault hash st).2.bucket = st.bucket := by
  refine fetchMap_held .get covered ?_
  intro bytes value mapped
  exact ⟨value, readObject_eq_ok_iff.mp mapped⟩

theorem getRaw_held {st : GcsState Hash} (covered : Covered P st) (fault : Option CacheFault) (hash : Hash) :
    (GcsObjectStore.getRaw P .up fault hash st).1 = readHeld P (st.bucket hash) hash (readRaw P hash) ∧
      Covered P (GcsObjectStore.getRaw P .up fault hash st).2 ∧
      (GcsObjectStore.getRaw P .up fault hash st).2.bucket = st.bucket := by
  refine fetchMap_held .getRaw covered ?_
  intro bytes value mapped
  exact (readRaw_eq_ok_iff.mp mapped).2

omit [DecidableEq Hash] in
theorem has_held {st : GcsState Hash} (covered : Covered P st) (hash : Hash) :
    GcsObjectStore.has P .up hash st = (st.bucket hash).isSome := by
  rw [GcsObjectStore.has, remoteExists]
  cases slot : st.cache (pathFor P hash) with
  | none => simp
  | some compressed =>
    have there : (st.bucket hash).isSome = true := by
      rcases covered hash compressed slot with stored | stored
      · exact Option.isSome_iff_exists.mpr ⟨compressed, stored⟩
      · exact stored.1
    simp [there]

theorem put_held {st : GcsState Hash} (covered : Covered P st) (call : Call Hash) :
    (runCall P S call {} st).1 = (call.exec P S.scanning (fun _ => none)).1 ∧ Covered P (runCall P S call {} st).2 ∧
      (runCall P S call {} st).2.bucket =
        if call.Accepted P S.scanning then Function.update st.bucket (call.hash P) (some (P.encodeAll (call.stored P)))
        else st.bucket := by
  have refused : (call.hits S.scanning ≠ [] ∧ call.hash P ∉ S.scanning.allowlist) ↔
      ¬ call.Accepted P S.scanning := by
    unfold Call.Accepted
    tauto
  rw [runCall_eq, Call.exec_eq]
  by_cases ok : call.Accepted P S.scanning
  · rw [if_neg (fun found => refused.mp found ok), if_pos ok, if_pos ok]
    rcases slots_cacheWriteCompressed P none (call.hash P) (P.encodeAll (call.stored P)) st.cache with
      ⟨_, _, faulty, _⟩ | ⟨written, _, filled⟩
    · cases faulty
    · rcases stored : cacheWriteCompressed P none (call.hash P) (P.encodeAll (call.stored P)) st.cache with
        ⟨r, cache⟩
      rw [stored] at written filled
      dsimp only at written filled
      subst written
      simp only [persist, stored, and_true]
      refine ⟨rfl, ?_⟩
      intro other compressed found
      dsimp only at found ⊢
      rw [filled] at found
      by_cases same : other = call.hash P
      · subst same
        rw [Function.update_self] at found ⊢
        exact Or.inl found
      · rw [Function.update_of_ne same] at found ⊢
        exact covered other compressed found
  · rw [if_pos (refused.mpr ok), if_neg ok, if_neg ok]
    exact ⟨rfl, covered, rfl⟩

end GcsObjectStore

section

variable {Hash : Type} [DecidableEq Hash] {P : Platform Hash} {S : GcsObjectStore Hash}

open GcsObjectStore

omit [DecidableEq Hash] in
theorem read_eq_readHeld {T : Type} (files : Files) (hash : Hash) (map : Bytes → Except (Error Hash) T) :
    (if (files (pathFor P hash)).isNone then .error (.notFound hash)
      else (readAt P files (pathFor P hash)).bind map) = readHeld P (slots P files hash) hash map := by
  unfold readHeld readAt slots
  cases files (pathFor P hash) with
  | none => rfl
  | some compressed =>
    cases decoded : P.decodeAll compressed with
    | none => simp only [decoded, Option.isNone_some, Bool.false_eq_true, if_false, Except.bind]
    | some bytes => simp only [decoded, Option.isNone_some, Bool.false_eq_true, if_false, Except.bind]

theorem get_eq_readHeld (files : Files) (hash : Hash) :
    get P files hash = readHeld P (slots P files hash) hash (readObject P hash) := by
  rw [← read_eq_readHeld, get]
  cases (files (pathFor P hash)).isNone <;> rfl

theorem getRaw_eq_readHeld (files : Files) (hash : Hash) :
    getRaw P files hash = readHeld P (slots P files hash) hash (readRaw P hash) := by
  rw [← read_eq_readHeld, getRaw]
  cases (files (pathFor P hash)).isNone <;> rfl

def Mirrors (P : Platform Hash) (files : Files) (st : GcsState Hash) : Prop :=
  Covered P st ∧ slots P files = st.bucket

theorem Mirrors.said {files : Files} {st : GcsState Hash} (mirrors : Mirrors P files st) (fault : Option CacheFault)
    (ask : Ask Hash) : (ask.onDisk P S files).1 = (ask.inBucket P S fault st).1 := by
  obtain ⟨covered, same⟩ := mirrors
  cases ask with
  | put call =>
    have outcome : (call.exec P S.scanning files).1 = (call.exec P S.scanning (fun _ => none)).1 := by
      rw [call.exec_eq, call.exec_eq]
      split <;> rfl
    exact congrArg Said.address (outcome.trans (put_held covered call).1.symm)
  | get hash =>
    refine congrArg Said.object ?_
    rw [(get_held covered fault hash).1, get_eq_readHeld, same]
  | getRaw hash =>
    refine congrArg Said.bytes ?_
    rw [(getRaw_held covered fault hash).1, getRaw_eq_readHeld, same]
  | has hash =>
    refine congrArg Said.there ?_
    rw [has_held covered, ← same]
    rfl

theorem Visit.covered {st : GcsState Hash} (covered : Covered P st) {v : Visit Hash} (wears : v.Wears P) :
    Covered P (v.inBucket P S st).2 ∧ (v.inBucket P S st).2.bucket =
      match v.write? P S with
      | some w => Function.update st.bucket w.1 (some w.2)
      | none => st.bucket := by
  have worn : Covered P { st with cache := v.wear st.cache } := covered.wear (wears st.cache)
  obtain ⟨wear, fault, ask⟩ := v
  cases ask with
  | put call =>
    obtain ⟨_, kept, bucket⟩ := put_held (S := S) worn call
    refine ⟨kept, bucket.trans ?_⟩
    simp only [Visit.write?, Ask.call?, Option.bind_some]
    split <;> rfl
  | get hash => exact (get_held worn fault hash).2
  | getRaw hash => exact (getRaw_held worn fault hash).2
  | has hash => exact ⟨worn, rfl⟩

theorem Visit.files_slots (files : Files) (v : Visit Hash) :
    slots P (v.ask.onDisk P S files).2 =
      match v.write? P S with
      | some w => WriteOnce.put (slots P files) w.1 w.2
      | none => slots P files := by
  obtain ⟨wear, fault, ask⟩ := v
  cases ask with
  | put call =>
    simp only [Ask.onDisk, Visit.write?, Ask.call?, Option.bind_some, call.exec_eq]
    by_cases ok : call.Accepted P S.scanning
    · rw [if_pos ok, if_pos ok]
      exact slots_store P files _ _
    · rw [if_neg ok, if_neg ok]
  | get | getRaw | has => rfl

theorem Visit.contents {visits : List (Visit Hash)} (wears : ∀ v ∈ visits, v.Wears P) :
    Covered P (Visit.stateAfter P S visits) ∧
      (Visit.stateAfter P S visits).bucket = Overwrite.puts (fun _ => none) (visits.filterMap (Visit.write? P S)) ∧
      slots P (Visit.filesAfter P S visits) =
        WriteOnce.puts (fun _ => none) (visits.filterMap (Visit.write? P S)) := by
  induction visits using List.reverseRecOn with
  | nil =>
    refine ⟨?_, rfl, rfl⟩
    intro hash compressed found
    cases found
  | append_singleton visits v ih =>
    obtain ⟨covered, bucket, files⟩ := ih (fun v mem => wears v (List.mem_append_left _ mem))
    have later : Visit.stateAfter P S (visits ++ [v]) = (v.inBucket P S (Visit.stateAfter P S visits)).2 := by
      rw [Visit.stateAfter, List.foldl_append]
      rfl
    have written : Visit.filesAfter P S (visits ++ [v]) = (v.ask.onDisk P S (Visit.filesAfter P S visits)).2 := by
      rw [Visit.filesAfter, List.foldl_append]
      rfl
    obtain ⟨covered', bucket'⟩ := Visit.covered (S := S) covered (wears v (by simp))
    rw [later, written, Visit.files_slots, bucket', bucket, files, List.filterMap_append]
    refine ⟨covered', ?_⟩
    cases write : v.write? P S with
    | none => simp [write]
    | some w =>
      have one : List.filterMap (Visit.write? P S) [v] = [w] := by simp [write]
      rw [one, Overwrite.puts_concat, Overwrite.once_concat]
      exact ⟨rfl, rfl⟩

theorem readHeld_inj {hash : Hash} {content content' : Option Bytes}
    (whole : ∀ compressed, content = some compressed → ∃ bytes, compressed = P.encodeAll bytes)
    (whole' : ∀ compressed, content' = some compressed → ∃ bytes, compressed = P.encodeAll bytes)
    (same : readHeld P content hash (readRaw P hash) = readHeld P content' hash (readRaw P hash)) :
    content = content' := by
  have read : ∀ bytes, readHeld P (some (P.encodeAll bytes)) hash (readRaw P hash) = readRaw P hash bytes := by
    intro bytes
    simp only [readHeld, P.decodeAll_encodeAll]
  have found : ∀ bytes, readRaw P hash bytes ≠ .error (.notFound hash) := by
    intro bytes
    unfold readRaw checkIntegrity
    split <;> rintro ⟨⟩
  have apart : ∀ bytes bytes', readRaw P hash bytes = readRaw P hash bytes' → bytes = bytes' := by
    intro bytes bytes' equal
    unfold readRaw checkIntegrity at equal
    split at equal
    · rename_i one
      split at equal
      · rename_i other
        exact P.of_injective (one.trans other.symm)
      · cases equal
    · split at equal
      · cases equal
      · exact P.of_injective (Error.integrityError.inj (Except.error.inj equal)).2
  cases content with
  | none =>
    cases content' with
    | none => rfl
    | some compressed =>
      obtain ⟨bytes, rfl⟩ := whole' compressed rfl
      rw [read] at same
      exact absurd same.symm (found bytes)
  | some compressed =>
    obtain ⟨bytes, rfl⟩ := whole compressed rfl
    cases content' with
    | none =>
      rw [read] at same
      exact absurd same (found bytes)
    | some compressed' =>
      obtain ⟨bytes', rfl⟩ := whole' compressed' rfl
      rw [read, read] at same
      rw [apart bytes bytes' same]

omit [DecidableEq Hash] in
theorem Call.form_of_stored {c d : Call Hash} (same : c.preimage P = d.preimage P) (stored : c.stored P = d.stored P) :
    c.form = d.form := by
  have typed : ∀ (o : Object Hash) (bytes : Bytes), o.preimage P = bytes → P.toVec (o.toJson P) ≠ bytes := by
    rintro o _ rfl equal
    refine o.preimage_not_stored P ?_
    rw [← equal, P.fromSlice_toVec, Option.bind_some, Object.fromJson_toJson]
  cases c with
  | put o policy =>
    cases d with
    | put o' policy' =>
      have tagged := congrArg (Object.fromJson P) (P.toVec_injective stored)
      rw [Object.fromJson_toJson, Object.fromJson_toJson] at tagged
      rw [Call.form, Call.form, Option.some.inj tagged]
    | putRaw kind bytes => exact absurd stored (typed o bytes same)
  | putRaw kind bytes =>
    cases d with
    | put o policy => exact absurd stored.symm (typed o bytes same.symm)
    | putRaw kind' bytes' => rfl

/-- The puts of a run. -/
def Visit.calls (visits : List (Visit Hash)) : List (Call Hash) := visits.filterMap (fun v => v.ask.call?)

theorem mem_writes {visits : List (Visit Hash)} {w : Hash × Bytes} :
    w ∈ visits.filterMap (Visit.write? P S) ↔ ∃ c ∈ Visit.calls visits, c.Accepted P S.scanning ∧
      w = (c.hash P, P.encodeAll (c.stored P)) := by
  simp only [Visit.calls, List.mem_filterMap, Visit.write?]
  constructor
  · rintro ⟨v, mem, written⟩
    obtain ⟨c, asked, ok⟩ := Option.bind_eq_some_iff.mp written
    split at ok
    · rename_i accepted
      exact ⟨c, ⟨v, mem, asked⟩, accepted, (Option.some.inj ok).symm⟩
    · cases ok
  · rintro ⟨c, ⟨v, mem, asked⟩, accepted, rfl⟩
    exact ⟨v, mem, by rw [asked, Option.bind_some, if_pos accepted]⟩

theorem single_iff {visits : List (Visit Hash)} :
    Overwrite.Single (visits.filterMap (Visit.write? P S)) ↔ FormsApart P S.scanning (Visit.calls visits) := by
  constructor
  · intro single c hc d hd ac ad same
    have stored := single _ (mem_writes.mpr ⟨c, hc, ac, rfl⟩) _ (mem_writes.mpr ⟨d, hd, ad, rfl⟩)
      (congrArg P.of same)
    have decoded := congrArg P.decodeAll stored
    rw [P.decodeAll_encodeAll, P.decodeAll_encodeAll] at decoded
    exact Call.form_of_stored same (Option.some.inj decoded)
  · intro apart v hv w hw same
    obtain ⟨c, hc, ac, rfl⟩ := mem_writes.mp hv
    obtain ⟨d, hd, ad, rfl⟩ := mem_writes.mp hw
    have hashed := P.of_injective same
    exact congrArg P.encodeAll (Call.stored_eq P (apart c hc d hd ac ad hashed) hashed)

/-- Calls of the trait in any order, while the bucket can be reached and every put is written, with any
wear of the cache between them and any failure of the writes that a read makes to it. At every moment
every call says the same of the store on the disk and of the store in the bucket, exactly when no two
accepted puts bring the same hashed bytes in different forms. -/
theorem stores_agree_iff {visits : List (Visit Hash)} (wears : ∀ v ∈ visits, v.Wears P) :
    (∀ front, front <+: visits → ∀ v : Visit Hash, v.Wears P →
      (v.ask.onDisk P S (Visit.filesAfter P S front)).1 = (v.inBucket P S (Visit.stateAfter P S front)).1) ↔
    FormsApart P S.scanning (Visit.calls visits) := by
  rw [← single_iff]
  constructor
  · intro agree
    refine Overwrite.single_of_always (fun front cut => ?_)
    obtain ⟨covered, bucket, files⟩ := Visit.contents (S := S) (fun v mem => wears v (cut.subset mem))
    have encoded : ∀ w ∈ front.filterMap (Visit.write? P S), ∃ bytes, w.2 = P.encodeAll bytes := by
      intro w mem
      obtain ⟨c, _, _, rfl⟩ := mem_writes.mp mem
      exact ⟨_, rfl⟩
    funext hash
    rw [← bucket, ← files]
    have still : Visit.Wears P ⟨id, none, .getRaw hash⟩ := fun _ _ => Or.inr (Or.inl rfl)
    have read : getRaw P (Visit.filesAfter P S front) hash =
        (GcsObjectStore.getRaw P .up none hash (Visit.stateAfter P S front)).1 :=
      Said.bytes.inj (agree front cut ⟨id, none, .getRaw hash⟩ still)
    rw [getRaw_eq_readHeld, (getRaw_held covered none hash).1] at read
    refine readHeld_inj (fun compressed held => ?_) (fun compressed held => ?_) read
    · rw [files] at held
      exact encoded _ (Overwrite.mem_of_once held)
    · rw [bucket] at held
      exact encoded _ (Overwrite.mem_of_last held)
  · intro single front cut v wear
    obtain ⟨covered, bucket, files⟩ := Visit.contents (S := S) (fun v mem => wears v (cut.subset mem))
    have before : Overwrite.Single (front.filterMap (Visit.write? P S)) := by
      have part := cut.filterMap (Visit.write? P S)
      exact fun u hu w hw => single u (part.subset hu) w (part.subset hw)
    have same : slots P (Visit.filesAfter P S front) = (Visit.stateAfter P S front).bucket := by
      rw [bucket, files, Overwrite.puts_eq_once before]
    have mirrors : Mirrors P (Visit.filesAfter P S front)
        { Visit.stateAfter P S front with cache := v.wear (Visit.stateAfter P S front).cache } :=
      ⟨covered.wear (wear _), same⟩
    exact mirrors.said v.fault v.ask

/-- A store whose scanner finds nothing. -/
def unscanned : GcsObjectStore Bytes := { scanner := .silent, allowlist := [] }

/-- A blob, and a segment once the cache is lost. -/
def blobThenSegment : List (Visit Bytes) :=
  [⟨id, none, .put (.put (.blob ⟨[104, 105]⟩) {})⟩,
    ⟨fun _ _ => none, some .createDir, .put (.putRaw .segment [1])⟩]

/-- The segment is read, and the cache is lost again. -/
theorem stores_agree_iff_two :
    let read : Visit Bytes := ⟨fun _ _ => none, some .rename, .getRaw [1]⟩
    let onDisk := (read.ask.onDisk Platform.sample unscanned
      (Visit.filesAfter Platform.sample unscanned blobThenSegment)).1
    onDisk = .bytes (.ok [1]) ∧ onDisk = (read.inBucket Platform.sample unscanned
      (Visit.stateAfter Platform.sample unscanned blobThenSegment)).1 := by
  intro read onDisk
  have wears : ∀ v ∈ blobThenSegment, v.Wears Platform.sample := by
    intro v mem
    rcases List.mem_pair.mp mem with rfl | rfl
    · exact fun _ _ => Or.inr (Or.inl rfl)
    · exact fun _ _ => Or.inl rfl
  have apart : FormsApart Platform.sample unscanned.scanning (Visit.calls blobThenSegment) := by
    have one : Visit.calls blobThenSegment = [.put (.blob ⟨[104, 105]⟩) {}, .putRaw .segment [1]] := rfl
    rw [one]
    intro c hc d hd _ _ same
    rcases List.mem_pair.mp hc with rfl | rfl <;> rcases List.mem_pair.mp hd with rfl | rfl
    · rfl
    · exact absurd same (by decide)
    · exact absurd same (by decide)
    · rfl
  refine ⟨?_, (stores_agree_iff wears).mpr apart blobThenSegment List.prefix_rfl read (fun _ _ => Or.inl rfl)⟩
  rfl

end

end GitAgentic
