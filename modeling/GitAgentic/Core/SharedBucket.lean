import GitAgentic.Core.ApprovalBinding
import GitAgentic.Core.Backends
import GitAgentic.Data.Shared
import GitAgentic.Data.SplitOnce

/-! Several repositories in one bucket. The prefix of a store is part of every object name, without
the slashes around it. The bucket is kept by the names as they stand in the URLs. -/
namespace GitAgentic

/-- `trim_matches('/')` -/
def trimSlashes (s : String) : List Char :=
  ((s.toList.dropWhile (· = '/')).reverse.dropWhile (· = '/')).reverse

def hexDigitUpper (n : Nat) : Char := Char.ofNat (if n < 10 then 48 + n else 55 + n)

def urlByte (b : UInt8) : List Char :=
  let c := Char.ofNat b.toNat
  if c.isAlphanum || c = '-' || c = '_' || c = '.' || c = '~' then [c]
  else if c = '/' then "%2F".toList
  else ['%', hexDigitUpper (b.toNat / 16), hexDigitUpper (b.toNat % 16)]

def urlencode (s : String) : List Char := (utf8 s.toList).flatMap urlByte

/-- A store, and the prefix of its names. -/
structure PrefixedStore (Hash : Type) where
  store : GcsObjectStore Hash
  namePrefix : String

section

variable {Hash : Type} (P : Platform Hash)

def objectName (namePrefix : String) (hash : Hash) : String :=
  let (a, b) := P.shard hash
  let p := trimSlashes namePrefix
  if p = [] then a ++ "/" ++ b ++ ".zst" else String.ofList p ++ "/" ++ a ++ "/" ++ b ++ ".zst"

/-- A call, whether a read gets through, and what goes wrong with the cache and the upload. -/
structure Sending (Hash : Type) where
  ask : Ask Hash
  link : Link := .up
  fault : Option CacheFault := none
  faults : PutFaults := {}

def Ask.address : Ask Hash → Hash
  | .put call => call.hash P
  | .get hash | .getRaw hash | .has hash => hash

variable [DecidableEq Hash] (S : GcsObjectStore Hash)

def Sending.step (c : Sending Hash) (st : GcsState Hash) : Said Hash × GcsState Hash :=
  match c.ask with
  | .put call =>
    let stored := GcsObjectStore.runCall P S call c.faults st
    (.address stored.1, stored.2)
  | .get hash =>
    let read := GcsObjectStore.get P c.link c.fault hash st
    (.object read.1, read.2)
  | .getRaw hash =>
    let read := GcsObjectStore.getRaw P c.link c.fault hash st
    (.bytes read.1, read.2)
  | .has hash => (.there (GcsObjectStore.has P c.link hash st), st)

variable {P}

/- Names. -/

theorem hexDigitUpper_injective : ∀ m < 16, ∀ n < 16, hexDigitUpper m = hexDigitUpper n → m = n := by
  decide

theorem byte_of_char {b c : UInt8} (same : Char.ofNat b.toNat = Char.ofNat c.toNat) : b = c := by
  have valid : ∀ b : UInt8, (Char.ofNat b.toNat).toNat = b.toNat := by
    intro b
    have small := b.toNat_lt
    rw [Char.toNat_ofNat, if_pos (Or.inl (by omega))]
  exact UInt8.toNat_inj.mp (by rw [← valid b, ← valid c, same])

theorem urlByte_cases (b : UInt8) : Char.ofNat b.toNat ≠ '%' ∧ urlByte b = [Char.ofNat b.toNat] ∨
    urlByte b = ['%', hexDigitUpper (b.toNat / 16), hexDigitUpper (b.toNat % 16)] := by
  unfold urlByte
  dsimp only
  split
  · rename_i plain
    refine Or.inl ⟨fun percent => ?_, rfl⟩
    rw [percent] at plain
    revert plain
    decide
  · refine Or.inr ?_
    split
    · rename_i slash
      have byte : b = 0x2f := byte_of_char slash
      rw [byte]
      decide
    · rfl

theorem flatMap_urlByte_injective {bs cs : Bytes} (same : bs.flatMap urlByte = cs.flatMap urlByte) : bs = cs := by
  have some_ : ∀ b : UInt8, urlByte b ≠ [] := by
    intro b empty
    rcases urlByte_cases b with ⟨_, plain⟩ | coded
    · rw [plain] at empty
      cases empty
    · rw [coded] at empty
      cases empty
  induction bs generalizing cs with
  | nil =>
    cases cs with
    | nil => rfl
    | cons c cs =>
      rw [List.flatMap_cons] at same
      exact absurd (List.append_eq_nil_iff.mp same.symm).1 (some_ c)
  | cons b bs ih =>
    cases cs with
    | nil =>
      rw [List.flatMap_cons] at same
      exact absurd (List.append_eq_nil_iff.mp same).1 (some_ b)
    | cons c cs =>
      rw [List.flatMap_cons, List.flatMap_cons] at same
      rcases urlByte_cases b with ⟨plain, one⟩ | coded <;> rcases urlByte_cases c with ⟨plain', one'⟩ | coded'
      · rw [one, one'] at same
        obtain ⟨first, rest⟩ := List.cons.inj same
        rw [byte_of_char first, ih rest]
      · rw [one, coded'] at same
        exact absurd (List.cons.inj same).1 plain
      · rw [coded, one'] at same
        exact absurd (List.cons.inj same).1.symm plain'
      · rw [coded, coded'] at same
        simp only [List.cons_append, List.nil_append, List.cons.injEq, true_and] at same
        obtain ⟨high, low, rest⟩ := same
        have tops := hexDigitUpper_injective _ (by have := b.toNat_lt; omega) _ (by have := c.toNat_lt; omega) high
        have units := hexDigitUpper_injective _ (by omega) _ (by omega) low
        rw [UInt8.toNat_inj.mp (by omega : b.toNat = c.toNat), ih rest]

theorem urlencode_injective : Function.Injective urlencode := by
  intro s s' same
  exact String.toList_inj.mp (utf8_injective (flatMap_urlByte_injective same))

omit [DecidableEq Hash] in
theorem slash_notMem_hex (hash : Hash) : '/' ∉ P.hex hash := by
  have plain : ∀ d < 16, Json.hexDigit d ≠ '/' := by decide
  intro mem
  obtain ⟨b, _, digit⟩ := List.mem_flatMap.mp mem
  have small := b.toNat_lt
  rcases List.mem_pair.mp digit with high | low
  · exact plain _ (by omega) high.symm
  · exact plain _ (by omega) low.symm

variable (P) in
omit [DecidableEq Hash] in
def directory (namePrefix : String) (hash : Hash) : List Char :=
  let p := trimSlashes namePrefix
  if p = [] then (P.hex hash).take 2 else p ++ '/' :: (P.hex hash).take 2

omit [DecidableEq Hash] in
theorem objectName_toList (namePrefix : String) (hash : Hash) : (objectName P namePrefix hash).toList =
    directory P namePrefix hash ++ '/' :: ((P.hex hash).drop 2 ++ ".zst".toList) := by
  have slash : "/".toList = ['/'] := rfl
  unfold objectName directory Platform.shard
  dsimp only
  split <;> simp [slash]

omit [DecidableEq Hash] in
theorem directory_inj {p q : String} {hash other : Hash} (same : directory P p hash = directory P q other) :
    trimSlashes p = trimSlashes q ∧ (P.hex hash).take 2 = (P.hex other).take 2 := by
  have plain : ∀ hash : Hash, '/' ∉ (P.hex hash).take 2 := fun hash mem =>
    slash_notMem_hex hash (List.mem_of_mem_take mem)
  unfold directory at same
  dsimp only at same
  split at same <;> split at same
  · rename_i empty empty'
    exact ⟨empty.trans empty'.symm, same⟩
  · exact absurd (same ▸ List.mem_append_right _ List.mem_cons_self) (plain hash)
  · exact absurd (same ▸ List.mem_append_right _ List.mem_cons_self) (plain other)
  · exact splitLast_inj (plain hash) (plain other) same

/-- The name as it stands in the URLs of an upload, a download and a look at the metadata. -/
def PrefixedStore.name (P : Platform Hash) (R : PrefixedStore Hash) (hash : Hash) : List Char :=
  urlencode (objectName P R.namePrefix hash)

omit [DecidableEq Hash] in
theorem objectName_inj_iff {p q : String} {hash other : Hash} :
    objectName P p hash = objectName P q other ↔ trimSlashes p = trimSlashes q ∧ hash = other := by
  constructor
  · intro same
    have plain : ∀ hash : Hash, '/' ∉ (P.hex hash).drop 2 ++ ".zst".toList := by
      intro hash mem
      rcases List.mem_append.mp mem with digit | letter
      · exact slash_notMem_hex hash (List.mem_of_mem_drop digit)
      · exact absurd letter (by decide)
    have chars := congrArg String.toList same
    rw [objectName_toList, objectName_toList] at chars
    obtain ⟨front, back⟩ := splitLast_inj (plain hash) (plain other) chars
    obtain ⟨prefixes, high⟩ := directory_inj front
    have low := List.append_cancel_right back
    refine ⟨prefixes, P.hex_injective ?_⟩
    rw [← List.take_append_drop 2 (P.hex hash), ← List.take_append_drop 2 (P.hex other), high, low]
  · rintro ⟨prefixes, rfl⟩
    unfold objectName
    rw [prefixes]

/- Calls. -/

namespace GcsObjectStore

omit [DecidableEq Hash] in
theorem refetch_bucket {T : Type} (link : Link) (fault : Option CacheFault) (hash : Hash)
    (map : Bytes → Except (Error Hash) T) (st : GcsState Hash) :
    (refetch P link fault hash map st).2.bucket = st.bucket := by
  unfold refetch
  repeat' split
  all_goals rfl

omit [DecidableEq Hash] in
theorem fetchMap_bucket {T : Type} (link : Link) (fault : Option CacheFault) (hash : Hash)
    (map : Bytes → Except (Error Hash) T) (st : GcsState Hash) :
    (fetchMap P link fault hash map st).2.bucket = st.bucket := by
  unfold fetchMap
  repeat' split
  all_goals first | rfl | exact refetch_bucket _ _ _ _ _

theorem persist_frame (faults : PutFaults) (hash : Hash) (compressed : Bytes) (st : GcsState Hash) {other : Hash}
    (away : other ≠ hash) : (persist P faults hash compressed st).2.bucket other = st.bucket other := by
  unfold persist
  repeat' split
  · rfl
  · rfl
  · exact Function.update_of_ne away _ _

end GcsObjectStore

open GcsObjectStore

variable {S}

theorem Sending.frame (c : Sending Hash) (st : GcsState Hash) {other : Hash} (away : other ≠ c.ask.address P) :
    (c.step P S st).2.bucket other = st.bucket other := by
  obtain ⟨ask, link, fault, faults⟩ := c
  cases ask with
  | put call =>
    show (runCall P S call faults st).2.bucket other = _
    rw [runCall_eq]
    split
    · rfl
    · exact persist_frame faults _ _ st away
  | get hash => exact congrFun (fetchMap_bucket link fault hash _ st) other
  | getRaw hash => exact congrFun (fetchMap_bucket link fault hash _ st) other
  | has hash => rfl

/-- A store as it sees the objects of its own names. -/
def PrefixedStore.machine (P : Platform Hash) (R : PrefixedStore Hash) :
    Shared.Machine (Sending Hash) Files Hash Bytes (Said Hash) where
  step c cache bucket :=
    let r := c.step P R.store { cache, bucket }
    (r.1, r.2.cache, r.2.bucket)
  key c := c.ask.address P
  frame c _ _ _ away := c.frame _ away

variable {ι : Type} [DecidableEq ι] {stores : ι → PrefixedStore Hash}

theorem tree_stored (R : PrefixedStore Hash) :
    let call : Call Hash := .put (.tree { entries := BTreeMap.empty }) {}
    let st := (runCall P R.store call {} { cache := fun _ => none, bucket := fun _ => none }).2
    (st.bucket (call.hash P)).isSome = true := by
  intro call st
  have kept : st = (persist P {} (call.hash P) (P.encodeAll (call.stored P))
      { cache := fun _ => none, bucket := fun _ => none }).2 := by
    show (runCall P R.store call {} _).2 = _
    rw [runCall_eq, if_neg]
    rintro ⟨found, _⟩
    exact found rfl
  rw [kept]
  simp [persist, cacheWriteCompressed]

theorem tree_seen {i j : ι} (same : trimSlashes (stores i).namePrefix = trimSlashes (stores j).namePrefix) :
    let call : Call Hash := .put (.tree { entries := BTreeMap.empty }) {}
    let after := (Shared.turn (fun j => (stores j).machine P) (fun j => (stores j).name P)
      (j, ({ ask := .put call } : Sending Hash)) { own := fun _ _ => none, shared := fun _ => none }).2
    GcsObjectStore.has P .up (call.hash P) { cache := after.own i, bucket := after.view ((stores i).name P) } =
      true := by
  intro call after
  have alike : (stores i).name P (call.hash P) = (stores j).name P (call.hash P) :=
    congrArg urlencode (objectName_inj_iff.mpr ⟨same, rfl⟩)
  have found : (after.view ((stores i).name P) (call.hash P)).isSome = true := by
    have written := Shared.turn_seen (fun j => (stores j).machine P) (fun j => (stores j).name P)
      { ask := .put call } alike { own := fun _ _ => none, shared := fun _ => none }
    rw [written]
    exact tree_stored (stores j)
  simp [GcsObjectStore.has, remoteExists, found]

/-- Repositories in one bucket, any calls of each in any interleaving, any of which can fail. Each gets
the answers that it gets in a bucket of its own, whatever the others do, exactly when no two prefixes
are the same but for the slashes around them. -/
theorem prefixes_apart_iff :
    (∀ (i : ι) (calls : List (ι × Sending Hash)) (s : Shared.State ι Files (List Char) Bytes),
      Shared.part i (Shared.together (fun j => (stores j).machine P)
        (fun j => (stores j).name P) calls s).1 =
      (((stores i).machine P).alone (Shared.part i calls) (s.own i)
        (s.view ((stores i).name P))).1) ↔
    ∀ i j, trimSlashes (stores i).namePrefix = trimSlashes (stores j).namePrefix → i = j := by
  constructor
  · intro unnoticed i j same
    by_contra different
    -- the other one stores a tree, and this one asks for it
    let call : Call Hash := .put (.tree { entries := BTreeMap.empty }) {}
    let asked : Sending Hash := { ask := .has (call.hash P) }
    have seen := unnoticed i [(j, { ask := .put call }), (i, asked)]
      { own := fun _ _ => none, shared := fun _ => none }
    rw [Shared.together_cons, Shared.part_cons_of_ne (Ne.symm different), Shared.part_cons_of_ne (Ne.symm different),
      Shared.together_cons, Shared.part_cons_self, Shared.part_cons_self] at seen
    have silent : GcsObjectStore.has P .up (call.hash P) { cache := fun _ => none, bucket := fun _ => none } =
        false := by
      simp [GcsObjectStore.has, remoteExists]
    have heard := (Said.there.inj (List.cons.inj seen).1).trans silent
    exact Bool.noConfusion ((tree_seen same).symm.trans heard)
  · intro distinct i calls s
    have apart : Shared.Apart (fun j => (stores j).name P) := by
      intro j k hash other same
      obtain ⟨prefixes, hashes⟩ := objectName_inj_iff.mp (urlencode_injective same)
      exact ⟨distinct j k prefixes, hashes⟩
    exact congrArg Prod.fst (Shared.together_alone apart i calls s)

end

end GitAgentic
