import GitAgentic.Core.RoundTrip
import GitAgentic.Core.Staging
import GitAgentic.Memory.Segment

/-! What a commit refers to. Trees, commits, segments and manifests never share an address;
a blob shares one with them only when its content is the canonical text of one. -/
namespace GitAgentic

section

variable {Hash : Type} (P : Platform Hash)

/-- The bytes are the canonical text of no tree, commit, segment or manifest. -/
structure Plain (bytes : Bytes) : Prop where
  tree : ∀ t : Tree Hash, bytes ≠ (Object.tree t).preimage P
  commit : ∀ c : Commit Hash, bytes ≠ (Object.commit c).preimage P
  segment : ∀ s : Segment, bytes ≠ s.toCanonicalBytes P
  manifest : ∀ m : SegmentManifest Hash, bytes ≠ m.toCanonicalBytes P

theorem toVec_ne {a b : String} {v v' : Json} {ms ms' : List (String × Json)} (keys : a ≠ b) :
    P.toVec (.object ((a, v) :: ms)) ≠ P.toVec (.object ((b, v') :: ms')) := by
  intro same
  have members := Json.object.inj (P.toVec_injective same)
  exact keys (Prod.mk.inj (List.cons.inj members).1).1

theorem tree_ne_commit (t : Tree Hash) (c : Commit Hash) :
    (Object.tree t).preimage P ≠ (Object.commit c).preimage P := toVec_ne P (by decide)

theorem tree_ne_segment (t : Tree Hash) (s : Segment) :
    (Object.tree t).preimage P ≠ s.toCanonicalBytes P := toVec_ne P (by decide)

theorem tree_ne_manifest (t : Tree Hash) (m : SegmentManifest Hash) :
    (Object.tree t).preimage P ≠ m.toCanonicalBytes P := toVec_ne P (by decide)

theorem commit_ne_segment (c : Commit Hash) (s : Segment) :
    (Object.commit c).preimage P ≠ s.toCanonicalBytes P := toVec_ne P (by decide)

theorem commit_ne_manifest (c : Commit Hash) (m : SegmentManifest Hash) :
    (Object.commit c).preimage P ≠ m.toCanonicalBytes P := toVec_ne P (by decide)

open Classical in
/-- A hash of a canonical text has its kind; every other hash is a blob's. -/
noncomputable def canonicalKinds : Kinds P where
  kindOf h :=
    if ∃ t : Tree Hash, (Object.tree t).hash P = h then .tree
    else if ∃ c : Commit Hash, (Object.commit c).hash P = h then .commit
    else if (∃ s : Segment, s.hash P = h) ∨ ∃ m : SegmentManifest Hash, m.hash P = h then .segment
    else .blob
  tree t := if_pos ⟨t, rfl⟩
  commit c := by
    have apart : ¬ ∃ t : Tree Hash, (Object.tree t).hash P = (Object.commit c).hash P :=
      fun ⟨t, same⟩ => tree_ne_commit P t c (P.of_injective same)
    rw [if_neg apart, if_pos ⟨c, rfl⟩]

theorem kindOf_segment (s : Segment) : (canonicalKinds P).kindOf (P.of (s.toCanonicalBytes P)) = .segment := by
  have noTree : ¬ ∃ t : Tree Hash, (Object.tree t).hash P = P.of (s.toCanonicalBytes P) :=
    fun ⟨t, same⟩ => tree_ne_segment P t s (P.of_injective same)
  have noCommit : ¬ ∃ c : Commit Hash, (Object.commit c).hash P = P.of (s.toCanonicalBytes P) :=
    fun ⟨c, same⟩ => commit_ne_segment P c s (P.of_injective same)
  simp only [canonicalKinds, if_neg noTree, if_neg noCommit]
  exact if_pos (Or.inl ⟨s, rfl⟩)

theorem kindOf_manifest (m : SegmentManifest Hash) :
    (canonicalKinds P).kindOf (P.of (m.toCanonicalBytes P)) = .segment := by
  have noTree : ¬ ∃ t : Tree Hash, (Object.tree t).hash P = P.of (m.toCanonicalBytes P) :=
    fun ⟨t, same⟩ => tree_ne_manifest P t m (P.of_injective same)
  have noCommit : ¬ ∃ c : Commit Hash, (Object.commit c).hash P = P.of (m.toCanonicalBytes P) :=
    fun ⟨c, same⟩ => commit_ne_manifest P c m (P.of_injective same)
  simp only [canonicalKinds, if_neg noTree, if_neg noCommit]
  exact if_pos (Or.inr ⟨m, rfl⟩)

theorem kindOf_plain {bytes : Bytes} (plain : Plain P bytes) :
    (canonicalKinds P).kindOf (P.of bytes) = .blob := by
  have noTree : ¬ ∃ t : Tree Hash, (Object.tree t).hash P = P.of bytes :=
    fun ⟨t, same⟩ => plain.tree t (P.of_injective same).symm
  have noCommit : ¬ ∃ c : Commit Hash, (Object.commit c).hash P = P.of bytes :=
    fun ⟨c, same⟩ => plain.commit c (P.of_injective same).symm
  have noRaw : ¬ ((∃ s : Segment, s.hash P = P.of bytes) ∨
      ∃ m : SegmentManifest Hash, m.hash P = P.of bytes) := by
    rintro (⟨s, same⟩ | ⟨m, same⟩)
    · exact plain.segment s (P.of_injective same).symm
    · exact plain.manifest m (P.of_injective same).symm
  simp only [canonicalKinds, if_neg noTree, if_neg noCommit, if_neg noRaw]

end

section

variable {Hash : Type} [DecidableEq Hash] {P : Platform Hash} {K : Kinds P} {files files' : Files}

theorem Kinds.Typed.kind_of_has (typed : K.Typed files) {hash : Hash} {o : Object Hash}
    (has : Has P files hash o) : K.kindOf hash = o.kind := by
  obtain ⟨compressed, slot⟩ := Option.isSome_iff_exists.mp (slot_of_get has)
  rcases typed hash compressed slot with ⟨o', kind, rfl, rfl⟩ | ⟨bytes, _, rfl, rfl⟩
  · have same := (has_of_slot slot).symm.trans has
    cases same
    exact kind
  · obtain ⟨read, address⟩ := (get_eq_ok_iff P (held_of_slot P slot)).mp has
    have content : o.preimage P = bytes := P.of_injective address
    rw [← content] at read
    exact absurd read (o.preimage_not_stored P)

section

variable (P) (files : Files)

def HeldBlob (hash : Hash) : Prop := ∃ b, Has P files hash (.blob b)

def HeldTree (hash : Hash) : Prop :=
  ∃ t : Tree Hash, Has P files hash (.tree t) ∧ ∀ e ∈ t.entries.entries, HeldBlob P files e.2.hash

/-- All that the commit refers to is stored, except for its parent. -/
structure Complete (c : Commit Hash) : Prop where
  prompts : ∀ h ∈ c.prompts, HeldTree P files h
  tools : ∀ h ∈ c.tools, HeldTree P files h
  model : ∀ h ∈ c.model, HeldBlob P files h
  intent : ∀ h ∈ c.intent, HeldBlob P files h
  plan : ∀ h ∈ c.plan, HeldBlob P files h
  transcript : ∀ h ∈ c.transcript, HeldBlob P files h
  evals : ∀ h ∈ c.evals, HeldBlob P files h
  memory : ∀ h ∈ c.memorySnapshot, ∃ bytes, HasRaw P files h bytes

/-- The hash is that of a stored commit, with all it refers to and the whole chain of its
parents. -/
inductive Whole : Hash → Prop where
  | first {hash : Hash} {c : Commit Hash} : Has P files hash (.commit c) → Complete P files c →
      c.parent = none → Whole hash
  | next {hash parent : Hash} {c : Commit Hash} : Has P files hash (.commit c) → Complete P files c →
      c.parent = some parent → Whole parent → Whole hash

end

theorem HeldBlob.mono {hash : Hash} (h : HeldBlob P files hash) (more : Widens P files files') :
    HeldBlob P files' hash := h.imp (fun _ has => has.mono more)

theorem HeldTree.mono {hash : Hash} (h : HeldTree P files hash) (more : Widens P files files') :
    HeldTree P files' hash := by
  obtain ⟨t, has, blobs⟩ := h
  exact ⟨t, has.mono more, fun e he => (blobs e he).mono more⟩

theorem Complete.mono {c : Commit Hash} (h : Complete P files c) (more : Widens P files files') :
    Complete P files' c where
  prompts x hx := (h.prompts x hx).mono more
  tools x hx := (h.tools x hx).mono more
  model x hx := (h.model x hx).mono more
  intent x hx := (h.intent x hx).mono more
  plan x hx := (h.plan x hx).mono more
  transcript x hx := (h.transcript x hx).mono more
  evals x hx := (h.evals x hx).mono more
  memory x hx := (h.memory x hx).imp (fun _ has => has.mono more)

theorem Whole.mono {hash : Hash} (h : Whole P files hash) (more : Widens P files files') :
    Whole P files' hash := by
  induction h with
  | first has complete root => exact .first (has.mono more) (complete.mono more) root
  | next has complete parent _ ih => exact .next (has.mono more) (complete.mono more) parent ih

theorem HoldsTree.heldTree {entries : BTreeMap String Bytes} (h : HoldsTree P files entries) {hash : Hash}
    (named : hash ∈ treeHash? P entries) : HeldTree P files hash := by
  unfold treeHash? at named
  split at named
  · cases named
  · rename_i some_
    cases named
    refine ⟨_, h.tree some_, fun e he => ?_⟩
    rw [treeOf_entries, List.mem_map] at he
    obtain ⟨entry, mem, rfl⟩ := he
    exact ⟨_, h.blobs entry mem⟩

theorem HoldsBlob.heldBlob {payload : Option Bytes} (h : HoldsBlob P files payload) {hash : Hash}
    (named : hash ∈ payload.map P.of) : HeldBlob P files hash := by
  cases payload with
  | none => cases named
  | some bytes =>
    cases named
    exact ⟨_, h bytes rfl⟩

theorem HoldsInputs.complete {inputs : CommitInputs Hash} {now : Int} (h : HoldsInputs P files inputs)
    (memory : ∀ x ∈ inputs.memorySnapshot, ∃ bytes, HasRaw P files x bytes) :
    Complete P files (inputs.commit P now) where
  prompts _ hx := h.prompts.heldTree hx
  tools _ hx := h.tools.heldTree hx
  model _ hx := h.model.heldBlob hx
  intent _ hx := h.intent.heldBlob hx
  plan _ hx := h.plan.heldBlob hx
  transcript _ hx := h.transcript.heldBlob hx
  evals _ hx := h.evals.heldBlob hx
  memory := memory

end

end GitAgentic
