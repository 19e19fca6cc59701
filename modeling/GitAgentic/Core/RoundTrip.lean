import GitAgentic.Core.Store

/-! Reading back what a run of writes stored. Objects and raw bytes share one
address space and an address is written once, so what a call stored is readable
as long as no other form of the same hashed bytes was stored. -/
namespace GitAgentic

inductive Call (Hash : Type) where
  | put (object : Object Hash) (policy : ScanPolicy)
  | putRaw (kind : ObjectKind) (bytes : Bytes)
  deriving DecidableEq

/-- What a slot is written as: raw bytes, or the tagged JSON of one kind of object. -/
inductive Form where
  | raw
  | tagged (kind : ObjectKind)
  deriving DecidableEq

section

variable {Hash : Type} (P : Platform Hash)

theorem Object.preimage_not_stored (object : Object Hash) :
    (P.fromSlice (object.preimage P)).bind (Object.fromJson P) ≠ some object := by
  cases object with
  | tree t =>
    simp only [Object.preimage, P.fromSlice_toVec, Option.bind_some]
    rw [show t.members P = (Object.tree t).members P from rfl, Object.fromJson_untagged]
    simp
  | commit c =>
    simp only [Object.preimage, P.fromSlice_toVec, Option.bind_some]
    rw [show c.members P = (Object.commit c).members P from rfl, Object.fromJson_untagged]
    simp
  | blob b =>
    intro h
    obtain ⟨j, parsed, read⟩ := Option.bind_eq_some_iff.mp h
    have short := P.nodes_fromSlice _ _ parsed
    have long := nodes_of_blob P read
    simp only [Object.preimage] at short
    omega

namespace Call

def form : Call Hash → Form
  | .put object _ => .tagged object.kind
  | .putRaw _ _ => .raw

def preimage : Call Hash → Bytes
  | .put object _ => object.preimage P
  | .putRaw _ bytes => bytes

/-- The hash the call returns. -/
def hash (c : Call Hash) : Hash := P.of (c.preimage P)

def stored : Call Hash → Bytes
  | .put object _ => P.toVec (object.toJson P)
  | .putRaw _ bytes => bytes

variable (S : FsObjectStore Hash)

def hits : Call Hash → List Hit
  | .put (.blob blob) policy => S.scanner.scanWith blob.bytes policy
  | .put _ _ => []
  | .putRaw _ bytes => S.scanner.scan bytes

theorem stored_eq {c d : Call Hash} (form : c.form = d.form)
    (same : c.preimage P = d.preimage P) : c.stored P = d.stored P := by
  cases c with
  | put o policy => cases d with
    | put o' policy' =>
      have kind : o.kind = o'.kind := Form.tagged.inj form
      rw [stored, stored, Object.preimage_inj P kind same]
    | putRaw => cases form
  | putRaw kind bytes => cases d with
    | put => cases form
    | putRaw => exact same

/-- The scanner finds nothing, or the address is on the allowlist. -/
def Accepted (c : Call Hash) : Prop := c.hits S = [] ∨ P.of (c.preimage P) ∈ S.allowlist

variable [DecidableEq Hash]

instance (c : Call Hash) : Decidable (c.Accepted P S) := by
  unfold Accepted
  infer_instance

def exec : Call Hash → Files → Except (Error Hash) Hash × Files
  | .put object policy => S.putWithPolicy P object policy
  | .putRaw kind bytes => S.putRaw P kind bytes

theorem exec_eq (c : Call Hash) (files : Files) :
    c.exec P S files =
      if c.Accepted P S then
        (.ok (P.of (c.preimage P)),
          if (files (pathFor P (P.of (c.preimage P)))).isSome then files
          else writeAt P files (pathFor P (P.of (c.preimage P))) (c.stored P))
      else (.error (.secretDetected (c.hits S)), files) := by
  have hook : ∀ (hits : List Hit) (h : Hash),
      (hits ≠ [] ∧ h ∉ S.allowlist) ↔ ¬ (hits = [] ∨ h ∈ S.allowlist) := by
    intro hits h
    tauto
  cases c with
  | put object policy =>
    cases object <;>
      simp only [exec, FsObjectStore.putWithPolicy, hook, ite_not] <;> rfl
  | putRaw kind bytes =>
    simp only [exec, FsObjectStore.putRaw, hook, ite_not]
    rfl

end Call

variable [DecidableEq Hash] (S : FsObjectStore Hash)

/-- The successful calls with the hash each returned, and the files at the end. -/
def runCalls : List (Call Hash) → Files → List (Call Hash × Hash) × Files
  | [], files => ([], files)
  | c :: cs, files =>
    match c.exec P S files with
    | (.ok hash, files') =>
      let rest := runCalls cs files'
      ((c, hash) :: rest.1, rest.2)
    | (.error _, files') => runCalls cs files'

def Readable (files : Files) : Call Hash × Hash → Prop
  | (.put object _, hash) => get P files hash = .ok object
  | (.putRaw _ bytes, hash) => getRaw P files hash = .ok bytes

/-- No two accepted calls hash the same bytes under different forms. -/
def FormsApart (calls : List (Call Hash)) : Prop :=
  ∀ c ∈ calls, ∀ d ∈ calls, c.Accepted P S → d.Accepted P S →
    c.preimage P = d.preimage P → c.form = d.form

def accepted (calls : List (Call Hash)) : List (Call Hash) :=
  calls.filter (fun c => c.Accepted P S)

def writes (calls : List (Call Hash)) : List (Hash × Bytes) :=
  (accepted P S calls).map (fun c => (P.of (c.preimage P), P.encodeAll (c.stored P)))

variable {P S} in
theorem accepted_cons {c : Call Hash} (cs : List (Call Hash)) (h : c.Accepted P S) :
    accepted P S (c :: cs) = c :: accepted P S cs :=
  List.filter_cons_of_pos (by simpa using h)

variable {P S} in
theorem accepted_cons_not {c : Call Hash} (cs : List (Call Hash)) (h : ¬ c.Accepted P S) :
    accepted P S (c :: cs) = accepted P S cs :=
  List.filter_cons_of_neg (by simpa using h)

theorem runCalls_returned (calls : List (Call Hash)) (files : Files) :
    (runCalls P S calls files).1 =
      (accepted P S calls).map (fun c => (c, P.of (c.preimage P))) := by
  induction calls generalizing files with
  | nil => rfl
  | cons c cs ih =>
    unfold runCalls
    rw [c.exec_eq]
    by_cases h : c.Accepted P S
    · rw [if_pos h, accepted_cons cs h]
      exact congrArg _ (ih _)
    · rw [if_neg h, accepted_cons_not cs h]
      exact ih _

theorem slots_runCalls (calls : List (Call Hash)) (files : Files) :
    slots P (runCalls P S calls files).2 = WriteOnce.puts (slots P files) (writes P S calls) := by
  induction calls generalizing files with
  | nil => rfl
  | cons c cs ih =>
    unfold runCalls writes
    rw [c.exec_eq]
    by_cases h : c.Accepted P S
    · simp only [if_pos h]
      rw [accepted_cons cs h, ih, slots_store]
      rfl
    · simp only [if_neg h]
      rw [accepted_cons_not cs h]
      exact ih _

theorem slot_of_accepted {calls : List (Call Hash)}
    (single : ∀ c ∈ accepted P S calls, ∀ d ∈ accepted P S calls,
      c.preimage P = d.preimage P → c.stored P = d.stored P)
    {c : Call Hash} (mem : c ∈ accepted P S calls) :
    slots P (runCalls P S calls (fun _ => none)).2 (P.of (c.preimage P)) =
      some (P.encodeAll (c.stored P)) := by
  rw [slots_runCalls]
  refine WriteOnce.puts_of_mem (w := (P.of (c.preimage P), P.encodeAll (c.stored P))) ?_ ?_
  · intro v hv w hw same
    obtain ⟨d, hd, rfl⟩ := List.mem_map.mp hv
    obtain ⟨e, he, rfl⟩ := List.mem_map.mp hw
    exact congrArg P.encodeAll (single d hd e he (P.of_injective same))
  · exact List.mem_map.mpr ⟨c, mem, rfl⟩

theorem slot_filled {calls : List (Call Hash)} {c : Call Hash} (mem : c ∈ accepted P S calls) :
    ∃ first ∈ accepted P S calls, first.preimage P = c.preimage P ∧
      slots P (runCalls P S calls (fun _ => none)).2 (P.of (c.preimage P)) =
        some (P.encodeAll (first.stored P)) := by
  rw [slots_runCalls, WriteOnce.puts_apply]
  cases found : (writes P S calls).find? (fun w => w.1 = P.of (c.preimage P)) with
  | none =>
    have absent := List.find?_eq_none.mp found _ (List.mem_map.mpr ⟨c, mem, rfl⟩)
    simp at absent
  | some w =>
    obtain ⟨first, hf, rfl⟩ := List.mem_map.mp (List.mem_of_find?_eq_some found)
    have key := List.find?_some found
    simp only [decide_eq_true_eq] at key
    exact ⟨first, hf, P.of_injective key, rfl⟩

theorem readable_of_slot {files : Files} {c : Call Hash}
    (slot : slots P files (P.of (c.preimage P)) = some (P.encodeAll (c.stored P))) :
    Readable P files (c, P.of (c.preimage P)) := by
  cases c with
  | put object policy =>
    refine (get_eq_ok_iff P (held_of_slot P slot)).mpr ⟨?_, rfl⟩
    simp only [Call.stored, P.fromSlice_toVec, Option.bind_some, Object.fromJson_toJson]
  | putRaw kind bytes => exact (getRaw_eq_ok_iff P (held_of_slot P slot)).mpr ⟨rfl, rfl⟩

theorem raw_clash {files : Files} {object : Object Hash} {hash : Hash} {bytes held : Bytes}
    (slot : slots P files hash = some (P.encodeAll held))
    (typed : get P files hash = .ok object) (raw : getRaw P files hash = .ok bytes)
    (same : object.preimage P = bytes) : False := by
  have read := ((get_eq_ok_iff P (held_of_slot P slot)).mp typed).1
  rw [((getRaw_eq_ok_iff P (held_of_slot P slot)).mp raw).1, ← same] at read
  exact object.preimage_not_stored P read

/-- Every successful call of a run from the empty store is readable at the end
exactly when the accepted calls keep the forms of equal hashed bytes apart. -/
theorem readable_iff_formsApart (calls : List (Call Hash)) :
    (∀ r ∈ (runCalls P S calls (fun _ => none)).1,
      Readable P (runCalls P S calls (fun _ => none)).2 r) ↔ FormsApart P S calls := by
  rw [runCalls_returned]
  constructor
  · intro readable c hc d hd ac ad same
    have mc : c ∈ accepted P S calls := List.mem_filter.mpr ⟨hc, by simpa using ac⟩
    have md : d ∈ accepted P S calls := List.mem_filter.mpr ⟨hd, by simpa using ad⟩
    have rc := readable _ (List.mem_map.mpr ⟨c, mc, rfl⟩)
    have rd := readable _ (List.mem_map.mpr ⟨d, md, rfl⟩)
    obtain ⟨first, _, _, slot⟩ := slot_filled P S mc
    rw [← same] at rd
    cases c with
    | put o policy => cases d with
      | put o' policy' =>
        have one : Except.ok o = Except.ok o' := rc.symm.trans rd
        cases one
        rfl
      | putRaw kind bytes => exact (raw_clash P slot rc rd same).elim
    | putRaw kind bytes => cases d with
      | put o policy => exact (raw_clash P slot rd rc same.symm).elim
      | putRaw kind' bytes' => rfl
  · intro apart r hr
    obtain ⟨c, mc, rfl⟩ := List.mem_map.mp hr
    refine readable_of_slot P (slot_of_accepted P S ?_ mc)
    intro d hd e he same
    obtain ⟨hd, ad⟩ := List.mem_filter.mp hd
    obtain ⟨he, ae⟩ := List.mem_filter.mp he
    exact Call.stored_eq P (apart d hd e he (by simpa using ad) (by simpa using ae) same) same

/-- A raw byte string equal to a stored blob's content is lost: the blob's tagged
JSON already fills the slot. -/
theorem not_always_readable :
    ¬ ∀ (S : FsObjectStore Bytes) (calls : List (Call Bytes)),
      ∀ r ∈ (runCalls Platform.sample S calls (fun _ => none)).1,
        Readable Platform.sample (runCalls Platform.sample S calls (fun _ => none)).2 r := by
  intro readable
  have raw := readable { scanner := .silent, allowlist := [] }
    [.put (.blob ⟨[104, 105]⟩) {}, .putRaw .segment [104, 105]] (.putRaw .segment [104, 105], [104, 105])
    (by decide)
  revert raw
  simp only [Readable]
  decide

end

end GitAgentic
