import GitAgentic.Memory.StreamerRun

/-! Loading the manifest of a snapshot again. The streamer orders segments by table
and lower key only, the decoder also wants the upper keys to increase strictly. -/
namespace GitAgentic

section

variable {Hash σ : Type} (P : Platform Hash) (store : RawStore Hash σ)

/-- Of two segments with equal lower keys, the one sealed later ends lower. -/
def BoundsDescend (ranges : List (Value × Value)) : Prop :=
  ranges.Pairwise (fun earlier later =>
    pkSortKey P later.1 = pkSortKey P earlier.1 → pkSortKey P later.2 < pkSortKey P earlier.2)

theorem boundsDescend_iff {name : String} {head : TableHead Hash} (named : HeadNamed name head)
    (empty : head.active.rows = []) :
    BoundsDescend P (ranges head) ↔
      head.sealed.Pairwise (fun earlier later =>
        SegmentManifest.keyOf P later = SegmentManifest.keyOf P earlier →
          pkSortKey P later.pkHi < pkSortKey P earlier.pkHi) := by
  simp only [BoundsDescend, ranges, if_pos empty, List.append_nil, List.pairwise_map]
  refine List.Pairwise.iff_of_mem ?_
  intro a b ha hb
  simp [SegmentManifest.keyOf, named.refs a ha, named.refs b hb]

namespace Streamer

theorem onSnapshot_decodes_iff {st : Streamer Hash} (named : Named st) {schemaVersion : String}
    (version : schemaVersion ≠ "") {s : σ} {m : SegmentManifest Hash}
    (ok : (st.onSnapshot P store schemaVersion s).1 = .snapshot (.ok m)) :
    SegmentManifest.fromCanonicalBytes P (m.toCanonicalBytes P) = .ok m ↔
      ∀ name head, st.heads.get? name = some head → BoundsDescend P (ranges head) := by
  have after := onSnapshot_named P store named schemaVersion s
  obtain ⟨_, _, _, manifest⟩ := st.onSnapshot_forall₂ P store schemaVersion s
  have entries := manifest m ok
  rw [manifestOf, SegmentManifest.foldl_push] at entries
  rw [SegmentManifest.fromCanonicalBytes_iff, entries]
  simp only [ne_eq, version, not_false_eq_true, true_and]
  rw [Arrange.arrange_strict_iff, List.pairwise_flatMap]
  have apart : (st.onSnapshot P store schemaVersion s).2.1.heads.entries.Pairwise (fun e e' =>
      ∀ a ∈ e.2.sealed, ∀ b ∈ e'.2.sealed, SegmentManifest.keyOf P b = SegmentManifest.keyOf P a →
        pkSortKey P b.pkHi < pkSortKey P a.pkHi) := by
    refine (st.onSnapshot P store schemaVersion s).2.1.heads.sorted.imp_of_mem ?_
    intro e e' he he' below a ha b hb same
    have ta := (after e.1 e.2 (BTreeMap.get?_eq_some_iff.mpr he)).refs a ha
    have tb := (after e'.1 e'.2 (BTreeMap.get?_eq_some_iff.mpr he')).refs b hb
    simp only [SegmentManifest.keyOf, toLex_inj, Prod.mk.injEq] at same
    rw [ta, tb] at same
    exact absurd same.1 below.ne'
  rw [and_iff_left apart]
  constructor
  · intro strict name head before
    rcases st.onSnapshot_head P store schemaVersion s name with
      ⟨absent, _⟩ | ⟨head, head', before', present, sealing, empty⟩
    · rw [absent] at before
      cases before
    · rw [before'] at before
      cases before
      rw [← sealing.ranges, boundsDescend_iff P (after name head' present) (empty ⟨m, ok⟩)]
      exact strict _ (BTreeMap.get?_eq_some_iff.mp present)
  · intro descend e he
    have found := BTreeMap.get?_eq_some_iff.mpr he
    rcases st.onSnapshot_head P store schemaVersion s e.1 with
      ⟨_, absent⟩ | ⟨head, head', before, present, sealing, empty⟩
    · rw [absent] at found
      cases found
    · rw [present] at found
      cases found
      rw [← boundsDescend_iff P (after e.1 e.2 present) (empty ⟨m, ok⟩), sealing.ranges]
      exact descend e.1 head before

/-- The same after any run of a spawned streamer. -/
theorem run_decodes_iff (tables : List TrackedTable) (threshold : Nat) (version : String)
    (cmds : List (Cmd Hash)) (s : σ) {schemaVersion : String} (nonempty : schemaVersion ≠ "")
    {m : SegmentManifest Hash}
    (ok : ((run P store cmds (spawn tables threshold version) s).2.1.onSnapshot P store schemaVersion
      (run P store cmds (spawn tables threshold version) s).2.2).1 = .snapshot (.ok m)) :
    SegmentManifest.fromCanonicalBytes P (m.toCanonicalBytes P) = .ok m ↔
      ∀ name head, (run P store cmds (spawn tables threshold version) s).2.1.heads.get? name =
        some head → BoundsDescend P (ranges head) :=
  onSnapshot_decodes_iff P store (run_named P store (spawn_named tables threshold version) cmds s)
    nonempty ok

end Streamer

end

def episodes : TrackedTable := { name := "episodes", pk := "id" }

def episode (key : UInt64) (note : String) : Value :=
  .ofJson (.object [("id", .number (.posInt key)), ("note", .string note)])

def episodeEvent (op : Op) (key : UInt64) (note : String) : ChangeEvent where
  table := "episodes"
  row := episode key note
  op := op
  schemaVersion := "1"

namespace Streamer

def episodeRun (cmds : List (Cmd Bytes)) : List (Outcome Bytes) × Streamer Bytes × Unit :=
  run Platform.sample RawStore.identity cmds (spawn [episodes] 0 "1") ()

def episodeManifest (cmds : List (Cmd Bytes)) : SegmentManifest Bytes :=
  manifestOf Platform.sample "1" ((episodeRun cmds).2.1.onSnapshot Platform.sample
    RawStore.identity "1" (episodeRun cmds).2.2).2.1.heads.entries

theorem episodeManifest_ok (cmds : List (Cmd Bytes)) :
    ((episodeRun cmds).2.1.onSnapshot Platform.sample RawStore.identity "1"
      (episodeRun cmds).2.2).1 = .snapshot (.ok (episodeManifest cmds)) :=
  onSnapshot_identity Platform.sample _ "1" _

/-- Decoding gives the manifest of such a snapshot back. -/
def EpisodeDecodes (cmds : List (Cmd Bytes)) : Prop :=
  SegmentManifest.fromCanonicalBytes Platform.sample
    ((episodeManifest cmds).toCanonicalBytes Platform.sample) = .ok (episodeManifest cmds)

def insertedTwice : List (Cmd Bytes) :=
  [.event (episodeEvent .insert 1 "a"), .event (episodeEvent .insert 2 "b")]

/-- Two rows, each sealed on its own. -/
theorem run_decodes_iff_episode : EpisodeDecodes insertedTwice := by
  have every : ∀ cmds, EpisodeDecodes cmds ↔ ∀ name head, (episodeRun cmds).2.1.heads.get? name = some head →
      BoundsDescend Platform.sample (ranges head) := fun cmds =>
    run_decodes_iff Platform.sample RawStore.identity [episodes] 0 "1" cmds () (by decide) (episodeManifest_ok cmds)
  refine (every insertedTwice).mpr ?_
  have bounds : (episodeRun insertedTwice).2.1.heads.entries.map (fun e => (e.1, ranges e.2)) =
      [("episodes", [(.ofJson (.number (.posInt 1)), .ofJson (.number (.posInt 1))),
        (.ofJson (.number (.posInt 2)), .ofJson (.number (.posInt 2)))])] := by
    decide +kernel
  intro name head found
  have listed := List.mem_map_of_mem (f := fun e => (e.1, ranges e.2)) (BTreeMap.get?_eq_some_iff.mp found)
  rw [bounds] at listed
  have same : ranges head = _ := congrArg Prod.snd (List.mem_singleton.mp listed)
  have apart : pkSortKey Platform.sample (.ofJson (.number (.posInt 2))) ≠
      pkSortKey Platform.sample (.ofJson (.number (.posInt 1))) := by decide +kernel
  rw [same]
  exact List.pairwise_pair.mpr (fun tie => absurd tie apart)

def updatedTwice : List (Cmd Bytes) :=
  [.event (episodeEvent .insert 1 "a"), .event (episodeEvent .update 1 "b")]

/-- A row written twice, each time sealed on its own, makes two segments of one range. -/
theorem not_always_decodes :
    ¬ ∀ (tables : List TrackedTable) (threshold : Nat) (version schemaVersion : String)
      (cmds : List (Cmd Bytes)) (m : SegmentManifest Bytes), schemaVersion ≠ "" →
      let P := Platform.sample
      let r := run P RawStore.identity cmds (spawn tables threshold version) ()
      (r.2.1.onSnapshot P RawStore.identity schemaVersion r.2.2).1 = .snapshot (.ok m) →
      SegmentManifest.fromCanonicalBytes P (m.toCanonicalBytes P) = .ok m := by
  intro always
  have every : ∀ cmds, EpisodeDecodes cmds := fun cmds =>
    always [episodes] 0 "1" "1" cmds (episodeManifest cmds) (by decide) (episodeManifest_ok cmds)
  have descends : ∀ cmds name head, (episodeRun cmds).2.1.heads.get? name = some head →
      BoundsDescend Platform.sample (ranges head) := fun cmds =>
    (onSnapshot_decodes_iff Platform.sample RawStore.identity
      (run_named _ _ (spawn_named [episodes] 0 "1") cmds ()) (by decide)
      (episodeManifest_ok cmds)).mp (every cmds)
  have bounds : ((episodeRun updatedTwice).2.1.heads.get? "episodes").map ranges =
        some [(.ofJson (.number (.posInt 1)), .ofJson (.number (.posInt 1))),
          (.ofJson (.number (.posInt 1)), .ofJson (.number (.posInt 1)))] := by
    decide +kernel
  obtain ⟨head, found, same⟩ := Option.map_eq_some_iff.mp bounds
  have descend := descends updatedTwice "episodes" head found
  rw [same] at descend
  simp [BoundsDescend] at descend

end Streamer

end GitAgentic
