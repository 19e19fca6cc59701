import GitAgentic.Memory.Accounting

/-! The key bounds of a sealed segment: the first and the last key received for it, which
bound the others only where the keys arrive that way. -/
namespace GitAgentic

def Number.asInt? : Number → Option Int
  | .posInt n => some n.toNat
  | .negInt m => some (-(m + 1 : Int))
  | .float _ => none

def Value.asInt? (v : Value) : Option Int :=
  match v.json with
  | .number n => n.asInt?
  | _ => none

def keyInt (pk : String) (row : Value) : Option Int := (row.get? pk).bind Value.asInt?

/-- The key of every row lies between the bounds. -/
def BoundsCover (pk : String) (lo hi : Value) (rows : List Value) : Prop :=
  ∀ v ∈ rows, ∃ row key l h, v.get? "row" = some row ∧ keyInt pk row = some key ∧
    lo.asInt? = some l ∧ hi.asInt? = some h ∧ l ≤ key ∧ key ≤ h

/-- No key of the events is below that of the first or above that of the last. -/
def EndsBound (pk : String) (chunk : List ChangeEvent) : Prop :=
  ∀ first ∈ chunk.head?, ∀ last ∈ chunk.getLast?, ∀ ev ∈ chunk,
    ∀ l ∈ keyInt pk first.row, ∀ h ∈ keyInt pk last.row, ∀ key ∈ keyInt pk ev.row, l ≤ key ∧ key ≤ h

section

variable {Hash σ : Type} (P : Platform Hash) (store : RawStore Hash σ)

/-- The bounds cover the rows, those of the segment and those of its ref. -/
def RangeHolds (s : σ) (pk : String) (r : SegmentRef Hash) : Prop :=
  ∃ segment, Restore.loadSegment P store s r.segment = .ok segment ∧
    BoundsCover pk segment.pkLo segment.pkHi segment.rows ∧ BoundsCover pk r.pkLo r.pkHi segment.rows

variable {P store} {fits : ChangeEvent → String → Prop}

theorem get?_row_envelope (op : String) (row : Value) :
    (Value.envelope op row).get? "row" = some row :=
  congrArg some (Value.ofJson_json row)

theorem SegmentOf.covers_iff {pk name : String} {chunk : List ChangeEvent} {segment : Segment}
    (h : SegmentOf fits pk name chunk segment) (ints : ∀ ev ∈ chunk, (keyInt pk ev.row).isSome) :
    BoundsCover pk segment.pkLo segment.pkHi segment.rows ↔ EndsBound pk chunk := by
  rw [h.rows]
  have lower : ∀ first ∈ chunk.head?, keyInt pk first.row = segment.pkLo.asInt? := by
    intro first hfirst
    rw [keyInt, h.pkLo first hfirst, Option.bind_some]
  have upper : ∀ last ∈ chunk.getLast?, keyInt pk last.row = segment.pkHi.asInt? := by
    intro last hlast
    rw [keyInt, h.pkHi last hlast, Option.bind_some]
  constructor
  · intro covers first hfirst last hlast ev hev l hl u hu key hkey
    obtain ⟨row, key', l', u', isRow, hkey', hl', hu', le, ge⟩ :=
      covers ev.envelope (List.mem_map_of_mem hev)
    rw [ChangeEvent.envelope, get?_row_envelope] at isRow
    cases isRow
    rw [lower first hfirst, hl'] at hl
    rw [upper last hlast, hu'] at hu
    rw [hkey'] at hkey
    cases hl
    cases hu
    cases hkey
    exact ⟨le, ge⟩
  · intro bound v hv
    obtain ⟨ev, hev, rfl⟩ := List.mem_map.mp hv
    have nonempty := List.ne_nil_of_mem hev
    have hfirst := List.head?_eq_some_head nonempty
    have hlast := List.getLast?_eq_some_getLast nonempty
    obtain ⟨key, hkey⟩ := Option.isSome_iff_exists.mp (ints ev hev)
    obtain ⟨l, hl⟩ := Option.isSome_iff_exists.mp (ints _ (List.mem_of_head? hfirst))
    obtain ⟨u, hu⟩ := Option.isSome_iff_exists.mp (ints _ (List.mem_of_getLast? hlast))
    obtain ⟨le, ge⟩ := bound _ hfirst _ hlast ev hev l hl u hu key hkey
    exact ⟨ev.row, key, l, u, get?_row_envelope _ _, hkey, (lower _ hfirst).symm.trans hl,
      (upper _ hlast).symm.trans hu, le, ge⟩

theorem SealedAs.range_iff {s : σ} {pk name : String} {r : SegmentRef Hash}
    {chunk : List ChangeEvent} {segment : Segment}
    (h : SealedAs P store fits s pk name r chunk segment)
    (ints : ∀ ev ∈ chunk, (keyInt pk ev.row).isSome) :
    RangeHolds P store s pk r ↔ EndsBound pk chunk := by
  rw [← h.holds.covers_iff ints]
  constructor
  · rintro ⟨other, loaded, covers, _⟩
    rw [h.loaded] at loaded
    cases loaded
    exact covers
  · intro covers
    refine ⟨segment, h.loaded, covers, ?_⟩
    rw [h.pkLo, h.pkHi]
    exact covers

namespace Streamer

variable (P store)

/-- The events accepted for a table, grouped as they were sealed. -/
structure Grouped (s : σ) (own : List (SegmentRef Hash)) (active : List Value)
    (accepted : List ChangeEvent) (chunks : List (List ChangeEvent)) (rest : List ChangeEvent) : Prop where
  whole : accepted = chunks.flatten ++ rest
  sealed : List.Forall₂ (fun r chunk => rowsOf P store s r = chunk.map ChangeEvent.envelope) own chunks
  open_ : active = rest.map ChangeEvent.envelope

/-- The segments that a run sealed for a table have bounds that cover their rows exactly
when no group of events sealed together has a key below its first or above its last. -/
def RangesIffEndsBound (tables : List TrackedTable) (threshold : Nat) (version : String)
    (cmds : List (Cmd Hash)) (s : σ) (name : String) : Prop :=
  let start : Streamer Hash := spawn tables threshold version
  let r := run P store cmds start s
  let own := ownRefs P store name cmds start s
  ∃ pk head chunks rest, start.pkFor.get? name = some pk ∧ r.2.1.heads.get? name = some head ∧
    Grouped P store r.2.2 own head.active.rows (acceptedOf start.pkFor name cmds) chunks rest ∧
    ((∀ ref ∈ own, RangeHolds P store r.2.2 pk ref) ↔ ∀ chunk ∈ chunks, EndsBound pk chunk)

variable {P store}

theorem ranges_iff_of_chunks {s : σ} {pk name : String} {own : List (SegmentRef Hash)}
    {chunks : List (List ChangeEvent)}
    (sealed : List.Forall₂ (fun r chunk => ∃ segment, SealedAs P store fits s pk name r chunk segment)
      own chunks)
    (ints : ∀ ev ∈ chunks.flatten, (keyInt pk ev.row).isSome) :
    (∀ ref ∈ own, RangeHolds P store s pk ref) ↔ ∀ chunk ∈ chunks, EndsBound pk chunk := by
  induction sealed with
  | nil => simp
  | cons stored _ ih =>
    obtain ⟨segment, stored⟩ := stored
    rw [List.flatten_cons] at ints
    rw [List.forall_mem_cons, List.forall_mem_cons,
      stored.range_iff (fun ev hev => ints ev (List.mem_append_left _ hev)),
      ih (fun ev hev => ints ev (List.mem_append_right _ hev))]

theorem rows_nonempty {s : σ} {pk name : String} {own : List (SegmentRef Hash)}
    {chunks : List (List ChangeEvent)}
    (sealed : List.Forall₂ (fun r chunk => ∃ segment, SealedAs P store fits s pk name r chunk segment)
      own chunks) :
    ∀ ref ∈ own, ∀ segment, Restore.loadSegment P store s ref.segment = .ok segment →
      segment.rows ≠ [] := by
  induction sealed with
  | nil => simp
  | cons stored _ ih =>
    obtain ⟨segment, stored⟩ := stored
    refine List.forall_mem_cons.mpr ⟨fun other loaded => ?_, ih⟩
    rw [stored.loaded] at loaded
    cases loaded
    rw [stored.holds.rows]
    exact fun none => stored.nonempty (List.map_eq_nil_iff.mp none)

/-- The key column of every row holds an integer. -/
def IntegerKeys (pkFor : BTreeMap String String) (name : String) (evs : List ChangeEvent) : Prop :=
  ∀ ev ∈ evs, ∀ pk, pkFor.get? name = some pk → (keyInt pk ev.row).isSome = true

variable (P store) in
theorem run_ranges_iff (tables : List TrackedTable) (threshold : Nat) (version : String)
    (cmds : List (Cmd Hash)) (s : σ) {t : TrackedTable} (mem : t ∈ tables)
    (ints : IntegerKeys (spawn tables threshold version : Streamer Hash).pkFor t.name
      (acceptedOf (spawn tables threshold version : Streamer Hash).pkFor t.name cmds)) :
    RangesIffEndsBound P store tables threshold version cmds s t.name := by
  unfold RangesIffEndsBound
  intro start r own
  obtain ⟨pkSame, pk, head, keyed, found, acc⟩ :=
    (Books.spawned P store (fun _ _ => True) threshold version s mem).run cmds (fun _ _ => trivial)
  rw [List.nil_append, List.nil_append, List.nil_append] at acc
  have keyed : start.pkFor.get? t.name = some pk := by
    rw [← keyed]
    exact congrArg (BTreeMap.get? · t.name) pkSame.symm
  obtain ⟨chunks, rest, split, active, sealed⟩ := acc.chunks
  refine ⟨pk, head, chunks, rest, keyed, found, ⟨split, ?_, active.rows⟩, ?_⟩
  · refine sealed.imp ?_
    rintro ref chunk ⟨segment, stored⟩
    exact stored.rows
  · refine ranges_iff_of_chunks sealed (fun ev hev => ints ev ?_ pk keyed)
    rw [split]
    exact List.mem_append_left _ hev

/-- A run with two keys, sealed by a snapshot. -/
def twoKeys (first second : UInt64) : List (Cmd Bytes) :=
  [.event (episodeEvent .insert first "a"), .event (episodeEvent .insert second "b"),
    .takeSnapshot "1"]

theorem run_ranges_iff_episode :
    RangesIffEndsBound Platform.sample RawStore.identity [episodes] 1000 "1" (twoKeys 1 2) ()
      episodes.name :=
  run_ranges_iff Platform.sample RawStore.identity [episodes] 1000 "1" (twoKeys 1 2) ()
    List.mem_cons_self (by
      have accepted : acceptedOf (spawn [episodes] 1000 "1" : Streamer Bytes).pkFor episodes.name
          (twoKeys 1 2) = [episodeEvent .insert 1 "a", episodeEvent .insert 2 "b"] := by decide
      have column : (spawn [episodes] 1000 "1" : Streamer Bytes).pkFor.get? episodes.name =
          some "id" := by decide
      rw [accepted]
      intro ev hev pk keyed
      rw [column] at keyed
      cases keyed
      revert ev
      decide)

/-- Keys that come in descending order give a segment whose bounds cover no row. -/
theorem not_always_covered :
    ¬ ∀ (tables : List TrackedTable) (threshold : Nat) (version : String) (cmds : List (Cmd Bytes))
      (t : TrackedTable), t ∈ tables →
      let start : Streamer Bytes := spawn tables threshold version
      IntegerKeys start.pkFor t.name (acceptedOf start.pkFor t.name cmds) →
      ∀ pk, start.pkFor.get? t.name = some pk →
      ∀ ref ∈ ownRefs Platform.sample RawStore.identity t.name cmds start (),
        RangeHolds Platform.sample RawStore.identity
          (run Platform.sample RawStore.identity cmds start ()).2.2 pk ref := by
  intro always
  let start : Streamer Bytes := spawn [episodes] 1000 "1"
  have accepted : acceptedOf start.pkFor episodes.name (twoKeys 2 1) =
      [episodeEvent .insert 2 "a", episodeEvent .insert 1 "b"] := by decide
  have column : start.pkFor.get? episodes.name = some "id" := by decide
  have ints : IntegerKeys start.pkFor episodes.name
      (acceptedOf start.pkFor episodes.name (twoKeys 2 1)) := by
    rw [accepted]
    intro ev hev pk keyed
    rw [column] at keyed
    cases keyed
    revert ev
    decide
  have bounds : (ownRefs Platform.sample RawStore.identity episodes.name (twoKeys 2 1) start ()).map
      (fun r => (r.pkLo.asInt?, r.pkHi.asInt?)) = [(some 2, some 1)] := by
    decide +kernel
  have first := List.mem_cons_self (a := (some (2 : Int), some (1 : Int))) (l := [])
  rw [← bounds] at first
  obtain ⟨ref, own, same⟩ := List.mem_map.mp first
  obtain ⟨lo, hi⟩ := Prod.mk.inj same
  obtain ⟨segment, loaded, _, covers⟩ :=
    always [episodes] 1000 "1" (twoKeys 2 1) episodes List.mem_cons_self ints "id" column ref own
  obtain ⟨_, pk, head, _, _, acc⟩ := (Books.spawned Platform.sample RawStore.identity
    (fun _ _ => True) 1000 "1" () (t := episodes) List.mem_cons_self).run (twoKeys 2 1)
    (fun _ _ => trivial)
  rw [List.nil_append, List.nil_append, List.nil_append] at acc
  obtain ⟨chunks, rest, _, _, sealed⟩ := acc.chunks
  obtain ⟨v, hv⟩ := List.exists_mem_of_ne_nil _ (rows_nonempty sealed ref own segment loaded)
  obtain ⟨_, key, l, h, _, _, hl, hh, le, ge⟩ := covers v hv
  rw [lo] at hl
  rw [hi] at hh
  cases hl
  cases hh
  omega

end Streamer

end

end GitAgentic
