import GitAgentic.Memory.StreamerRun
import GitAgentic.Memory.FullRows
import GitAgentic.Memory.Reload

/-! Restoring the manifest of a snapshot. The log of a table is cut into segments,
the manifest puts these in the order of their lower keys, and a restore replays them
in that order. -/
namespace GitAgentic

open LastWriter

section

variable {Hash σ : Type} (P : Platform Hash) (store : RawStore Hash σ)

/-- What a restore of the manifest writes into one table. -/
def restoreOne (s : σ) (m : SegmentManifest Hash) (table : TrackedTable) :
    Except (MemoryError Hash) Table :=
  Restore.loadSegments P store s m >>= fun segments => Restore.restoreTable P segments table

theorem loadSegments_rows {s : σ} {m : SegmentManifest Hash}
    (loads : ∀ r ∈ m.entries, Loads P store s r) :
    ∃ segments, Restore.loadSegments P store s m = .ok segments ∧
      segments.map (fun e => (e.1, e.2.rows)) =
        m.entries.map (fun r => (r, rowsOf P store s r)) := by
  unfold Restore.loadSegments
  generalize m.entries = entries at loads
  induction entries with
  | nil => exact ⟨[], rfl, rfl⟩
  | cons r rest ih =>
    obtain ⟨segment, loaded⟩ := loads r List.mem_cons_self
    obtain ⟨segments, others, rows⟩ := ih (fun q hq => loads q (List.mem_cons_of_mem _ hq))
    refine ⟨(r, segment) :: segments, ?_, ?_⟩
    · rw [List.mapM_cons, others, loaded]
      rfl
    · simp only [List.map_cons, rows, rowsOf, loaded]

theorem restoreOne_full {s : σ} {m : SegmentManifest Hash}
    (loads : ∀ r ∈ m.entries, Loads P store s r) (table : TrackedTable) {cols : List String}
    (full : ∀ r ∈ m.entries, r.table = table.name →
      ∀ v ∈ rowsOf P store s r, FullEnvelope Hash table.pk cols v) :
    let changes := ((m.entries.filter (fun r => r.table = table.name)).flatMap
      (rowsOf P store s)).filterMap (changeOf Hash table.pk)
    (restoreOne P store s m table).toOption =
      if Restore.isIdentifier table.name ∧ Restore.isIdentifier table.pk ∧
          changes.all (storable cols) then some (replay (fun _ => none) changes) else none := by
  obtain ⟨segments, loaded, rows⟩ := loadSegments_rows P store loads
  have read : ∀ e ∈ segments, e.1 ∈ m.entries ∧ e.2.rows = rowsOf P store s e.1 := by
    intro e he
    have mem := List.mem_map_of_mem (f := fun e : SegmentRef Hash × Segment => (e.1, e.2.rows)) he
    rw [rows] at mem
    obtain ⟨r, hr, same⟩ := List.mem_map.mp mem
    obtain ⟨rfl, same⟩ := Prod.mk.inj same
    exact ⟨hr, same.symm⟩
  have whole := restoreTable_full P table segments (by
    intro e he own v hv
    rw [(read e he).2] at hv
    exact full e.1 (read e he).1 own v hv)
  have same : (segments.filter (fun e => e.1.table = table.name)).flatMap (fun e => e.2.rows) =
      (m.entries.filter (fun r => r.table = table.name)).flatMap (rowsOf P store s) := by
    have pairs := congrArg (fun l => (l.filter (fun e => e.1.table = table.name)).flatMap Prod.snd) rows
    simpa only [List.filter_map, List.flatMap_map, Function.comp_def] using pairs
  rw [same] at whole
  rw [restoreOne, loaded]
  exact whole

/-- The segments of a table, none when the table has no head. -/
def piecesOf (s : σ) (st : Streamer Hash) (name : String) : List Piece :=
  (st.heads.get? name).elim [] (pieces P store s)

theorem flatMap_piecesOf (s : σ) (st : Streamer Hash) (name : String) :
    (piecesOf P store s st name).flatMap Piece.rows = st.logOf P store s name := by
  unfold piecesOf Streamer.logOf
  cases st.heads.get? name with
  | none => rfl
  | some head => exact flatMap_pieces P store s head

def pieceChanges (Hash : Type) (pkCol : String) (p : Piece) : List (Change Json Row) :=
  p.rows.filterMap (changeOf Hash pkCol)

def pieceKey (p : Piece) : PkKey := pkSortKey P p.pkLo

namespace Streamer

/-- The entries of a table in the manifest of a snapshot are its segments in the order
of their lower keys. -/
theorem onSnapshot_entries {st : Streamer Hash} (named : Named st) {s : σ}
    (loaded : Loaded P store s st) {schemaVersion : String} {m : SegmentManifest Hash}
    (ok : (st.onSnapshot P store schemaVersion s).1 = .snapshot (.ok m)) (name : String) :
    let after := (st.onSnapshot P store schemaVersion s).2.2
    (∀ r ∈ m.entries, Loads P store after r) ∧
      (m.entries.filter (fun r => r.table = name)).map (fun r => ⟨r.pkLo, rowsOf P store after r⟩) =
        Arrange.arrange (pieceKey P) (piecesOf P store s st name) := by
  intro after
  have named' := onSnapshot_named P store named schemaVersion s
  obtain ⟨loaded', _⟩ := onSnapshot_log loaded schemaVersion
  obtain ⟨_, _, _, manifest⟩ := st.onSnapshot_forall₂ P store schemaVersion s
  have entries := congrArg SegmentManifest.entries (manifest m ok)
  rw [manifestOf, SegmentManifest.foldl_push] at entries
  simp only at entries
  have found : ∀ e ∈ (st.onSnapshot P store schemaVersion s).2.1.heads.entries,
      (st.onSnapshot P store schemaVersion s).2.1.heads.get? e.1 = some e.2 :=
    fun e he => BTreeMap.get?_eq_some_iff.mpr he
  refine ⟨?_, ?_⟩
  · intro r hr
    rw [entries, Arrange.mem_arrange] at hr
    obtain ⟨e, he, hr⟩ := List.mem_flatMap.mp hr
    exact loaded' e.1 e.2 (found e he) r hr
  · have own : ((st.onSnapshot P store schemaVersion s).2.1.heads.entries.flatMap
          (fun h => h.2.sealed)).filter (fun r => r.table = name) =
        ((st.onSnapshot P store schemaVersion s).2.1.heads.get? name).elim [] TableHead.sealed :=
      sealed_filter named' name
    rw [entries, Arrange.arrange_filter, own]
    rw [Arrange.arrange_map _ (pieceKey P)]
    · congr 1
      unfold piecesOf
      rcases st.onSnapshot_head P store schemaVersion s name with
        ⟨absent, gone⟩ | ⟨head, head', before, present, sealing, empty⟩
      · rw [absent, gone]
        rfl
      · rw [before, present]
        simp only [Option.elim]
        rw [← sealing.pieces (loaded name head before), pieces, if_pos (empty ⟨m, ok⟩),
          List.append_nil]
    · intro a ha b hb
      have own : ∀ r ∈ ((st.onSnapshot P store schemaVersion s).2.1.heads.get? name).elim []
          TableHead.sealed, r.table = name := by
        intro r hr
        cases present : (st.onSnapshot P store schemaVersion s).2.1.heads.get? name with
        | none =>
          rw [present] at hr
          cases hr
        | some head =>
          rw [present] at hr
          exact (named' name head present).refs r hr
      simp [SegmentManifest.keyOf, pieceKey, Prod.Lex.toLex_le_toLex, own a ha, own b hb]

/-- The condition under which a snapshot restores a table: its names are accepted by
the database, and at every key the segment replayed last leaves what the newest one
leaves. -/
structure Restorable (cols : List String) (table : TrackedTable) (ps : List Piece) : Prop where
  name : Restore.isIdentifier table.name = true
  pk : Restore.isIdentifier table.pk = true
  columns : ∀ p ∈ ps, ∀ c ∈ pieceChanges Hash table.pk p, storable cols c = true
  newest : NewestWins (pieceChanges Hash table.pk) (pieceKey P) ps

def logTable (s : σ) (st : Streamer Hash) (table : TrackedTable) : Table :=
  replay (fun _ => none) ((st.logOf P store s table.name).filterMap (changeOf Hash table.pk))

theorem onSnapshot_restore_iff {st : Streamer Hash} (named : Named st) {s : σ}
    (loaded : Loaded P store s st) {schemaVersion : String} {m : SegmentManifest Hash}
    (ok : (st.onSnapshot P store schemaVersion s).1 = .snapshot (.ok m)) {table : TrackedTable}
    {cols : List String}
    (full : ∀ v ∈ st.logOf P store s table.name, FullEnvelope Hash table.pk cols v) :
    (restoreOne P store (st.onSnapshot P store schemaVersion s).2.2 m table).toOption =
        some (logTable P store s st table) ↔
      Restorable P cols table (piecesOf P store s st table.name) := by
  obtain ⟨loads, arranged⟩ := onSnapshot_entries P store named loaded ok table.name
  have rows : (m.entries.filter (fun r => r.table = table.name)).flatMap
        (rowsOf P store (st.onSnapshot P store schemaVersion s).2.2) =
      (Arrange.arrange (pieceKey P) (piecesOf P store s st table.name)).flatMap Piece.rows := by
    rw [← arranged, List.flatMap_map]
  have among : ∀ p ∈ Arrange.arrange (pieceKey P) (piecesOf P store s st table.name),
      ∀ v ∈ p.rows, v ∈ st.logOf P store s table.name := by
    intro p hp v hv
    rw [← flatMap_piecesOf]
    exact List.mem_flatMap.mpr ⟨p, (Arrange.mem_arrange _).mp hp, hv⟩
  have restored := restoreOne_full P store loads table (by
    intro r hr own v hv
    refine full v ?_
    have mem : v ∈ (m.entries.filter (fun r => r.table = table.name)).flatMap
        (rowsOf P store (st.onSnapshot P store schemaVersion s).2.2) :=
      List.mem_flatMap.mpr ⟨r, List.mem_filter.mpr ⟨hr, by simpa using own⟩, hv⟩
    rw [rows] at mem
    obtain ⟨p, hp, hv⟩ := List.mem_flatMap.mp mem
    exact among p hp v hv)
  rw [rows, List.filterMap_flatMap] at restored
  have log : logTable P store s st table = replay (fun _ => none)
      ((piecesOf P store s st table.name).flatMap (pieceChanges Hash table.pk)) := by
    rw [logTable, ← flatMap_piecesOf, List.filterMap_flatMap]
    rfl
  have columns : ((Arrange.arrange (pieceKey P) (piecesOf P store s st table.name)).flatMap
        (pieceChanges Hash table.pk)).all (storable cols) = true ↔
      ∀ p ∈ piecesOf P store s st table.name,
        ∀ c ∈ pieceChanges Hash table.pk p, storable cols c = true := by
    simp only [List.all_eq_true, List.mem_flatMap, Arrange.mem_arrange, forall_exists_index, and_imp]
    exact ⟨fun h p hp c hc => h c p hp hc, fun h c p hp hc => h p hp c hc⟩
  have order := replay_arrange_iff (pieceChanges Hash table.pk) (pieceKey P)
    (piecesOf P store s st table.name)
  refine Eq.congr_left restored |>.trans ?_
  rw [log]
  constructor
  · intro same
    split at same
    · rename_i valid
      exact ⟨valid.1, valid.2.1, columns.mp valid.2.2, order.mp (Option.some.inj same)⟩
    · cases same
  · intro good
    rw [if_pos ⟨good.name, good.pk, columns.mpr good.columns⟩]
    exact congrArg some (order.mpr good.newest)

end Streamer

namespace Streamer

theorem mem_acceptedEvents {name : String} {rs : List Request} {os : List (Outcome Hash)}
    {ev : ChangeEvent} (h : ev ∈ acceptedEvents name rs os) :
    .event ev ∈ rs ∧ ev.table = name := by
  induction rs generalizing os with
  | nil => simp [acceptedEvents] at h
  | cons request rs ih =>
    have later (os : List (Outcome Hash)) (h : ev ∈ acceptedEvents name rs os) :
        .event ev ∈ request :: rs ∧ ev.table = name :=
      ⟨List.mem_cons_of_mem _ (ih h).1, (ih h).2⟩
    unfold acceptedEvents at h
    split at h
    · rename_i same
      cases same
      split at h
      · rename_i own
        rcases List.mem_cons.mp h with rfl | h
        · exact ⟨List.mem_cons_self, own⟩
        · exact later _ h
      · exact later _ h
    · rename_i same
      cases same
      exact later _ h
    · cases h

/-- The baseline of a table followed by its accepted events, folded in arrival order. -/
def arrivalTable (s : σ) (refs : List (SegmentRef Hash)) (evs : List ChangeEvent)
    (table : TrackedTable) : Table :=
  replay (fun _ => none)
    (((refs.filter (fun r => r.table = table.name)).flatMap (rowsOf P store s)).filterMap
      (changeOf Hash table.pk) ++ evs.map (ChangeEvent.change table.pk))

/-- Baseline segments that can be loaded and hold full rows. -/
structure Baseline (s : σ) (tables : List TrackedTable) (cols : String → List String)
    (refs : List (SegmentRef Hash)) : Prop where
  loads : ∀ r ∈ refs, Loads P store s r
  full : ∀ t ∈ tables, ∀ r ∈ refs, r.table = t.name →
    ∀ v ∈ rowsOf P store s r, FullEnvelope Hash t.pk (cols t.name) v

/-- Every event of a tracked table carries a full row. -/
def FullRequests (tables : List TrackedTable) (cols : String → List String)
    (rs : List Request) : Prop :=
  ∀ ev, .event ev ∈ rs → ∀ t ∈ tables, ev.table = t.name → FullEvent t.pk (cols t.name) ev

section

variable {tables : List TrackedTable} {threshold : Nat} {version : String}
  {refs : List (SegmentRef Hash)} {cols : String → List String} {s : σ} {rs : List Request}

/-- The outcomes, the streamer and the store after the requests. -/
def served (tables : List TrackedTable) (threshold : Nat) (version : String)
    (refs : List (SegmentRef Hash)) (rs : List Request) (s : σ) :
    List (Outcome Hash) × Streamer Hash × σ :=
  run P store (rs.map Request.cmd) (start tables threshold version refs) s

variable {P store} (threshold version) in
theorem served_log (baseline : Baseline P store s tables cols refs) (full : FullRequests tables cols rs)
    {t : TrackedTable} (mem : t ∈ tables) :
    let r := served P store tables threshold version refs rs s
    logTable P store r.2.2 r.2.1 t = arrivalTable P store s refs (acceptedEvents t.name rs r.1) t ∧
      ∀ v ∈ r.2.1.logOf P store r.2.2 t.name, FullEnvelope Hash t.pk (cols t.name) v := by
  intro r
  obtain ⟨loaded, _, started⟩ := start_spec tables threshold version baseline.loads
  obtain ⟨_, _, _, log⟩ := run_log loaded rs
  have fullEvents : ∀ ev ∈ acceptedEvents t.name rs r.1, FullEvent t.pk (cols t.name) ev := by
    intro ev hev
    obtain ⟨request, own⟩ := mem_acceptedEvents hev
    exact full ev request t mem own
  have rows : r.2.1.logOf P store r.2.2 t.name =
      (refs.filter (fun r => r.table = t.name)).flatMap (rowsOf P store s) ++
        (acceptedEvents t.name rs r.1).map ChangeEvent.envelope :=
    (log t.name).trans (congrArg (· ++ _) (started t mem))
  refine ⟨?_, ?_⟩
  · rw [logTable, arrivalTable, rows, List.filterMap_append, filterMap_envelopes fullEvents]
  · rw [rows]
    intro v hv
    rcases List.mem_append.mp hv with hv | hv
    · obtain ⟨q, hq, hv⟩ := List.mem_flatMap.mp hv
      obtain ⟨hq, own⟩ := List.mem_filter.mp hq
      exact baseline.full t mem q hq (by simpa using own) v hv
    · obtain ⟨ev, hev, rfl⟩ := List.mem_map.mp hv
      exact (fullEvents ev hev).envelope.1

theorem served_restore_iff (baseline : Baseline P store s tables cols refs)
    (full : FullRequests tables cols rs) {t : TrackedTable} (mem : t ∈ tables)
    {schemaVersion : String} {m : SegmentManifest Hash} :
    let r := served P store tables threshold version refs rs s
    let after := r.2.1.onSnapshot P store schemaVersion r.2.2
    after.1 = .snapshot (.ok m) →
    ((restoreOne P store after.2.2 m t).toOption =
        some (arrivalTable P store s refs (acceptedEvents t.name rs r.1) t) ↔
      Restorable P (cols t.name) t (piecesOf P store r.2.2 r.2.1 t.name)) := by
  intro r after ok
  obtain ⟨log, rows⟩ := served_log threshold version baseline full mem
  obtain ⟨loaded, _⟩ := start_spec tables threshold version baseline.loads
  rw [← log]
  exact onSnapshot_restore_iff P store
    (run_named P store (seeds_named (spawn_named tables threshold version) refs) _ s)
    (run_log loaded rs).1 ok rows

/-- The same for all tables. -/
theorem served_replays_iff (baseline : Baseline P store s tables cols refs)
    (full : FullRequests tables cols rs) {schemaVersion : String} {m : SegmentManifest Hash} :
    let r := served P store tables threshold version refs rs s
    let after := r.2.1.onSnapshot P store schemaVersion r.2.2
    after.1 = .snapshot (.ok m) →
    ((∀ t ∈ tables, (restoreOne P store after.2.2 m t).toOption =
        some (arrivalTable P store s refs (acceptedEvents t.name rs r.1) t)) ↔
      ∀ t ∈ tables, Restorable P (cols t.name) t (piecesOf P store r.2.2 r.2.1 t.name)) :=
  fun ok => forall₂_congr (fun _ mem => served_restore_iff P store baseline full mem ok)

end

end Streamer

end

def episodeCols : String → List String := fun _ => ["id", "note"]

theorem episode_full (key : UInt64) (note : String) (op : Op) :
    FullEvent "id" ["id", "note"] (episodeEvent op key note) := by
  refine ⟨[("id", .number (.posInt key)), ("note", .string note)], ?_, ?_, rfl⟩
  · refine Json.normal_object ?_ ?_
    · have order : "id" < "note" := by decide
      exact List.pairwise_pair.mpr order
    · simp [Json.toValue]
  · simp [Restore.columns]

namespace Streamer

def episodeRequests : List (Op × UInt64 × String) → List Request :=
  List.map (fun e => .event (episodeEvent e.1 e.2.1 e.2.2))

theorem episodeRequests_full (es : List (Op × UInt64 × String)) :
    FullRequests [episodes] episodeCols (episodeRequests es) := by
  intro ev hev t ht _
  obtain ⟨e, _, same⟩ := List.mem_map.mp hev
  cases same
  cases List.mem_singleton.mp ht
  exact episode_full _ _ _

theorem no_baseline (tables : List TrackedTable) (cols : String → List String) :
    Baseline Platform.sample RawStore.identity () tables cols [] where
  loads := by simp
  full := by simp

def episodeServed (es : List (Op × UInt64 × String)) : List (Outcome Bytes) × Streamer Bytes × Unit :=
  served Platform.sample RawStore.identity [episodes] 0 "1" [] (episodeRequests es) ()

def episodePieces (es : List (Op × UInt64 × String)) (name : String) : List Piece :=
  piecesOf Platform.sample RawStore.identity (episodeServed es).2.2 (episodeServed es).2.1 name

/-- A snapshot after these events restores what they leave. -/
def EpisodeReplays (es : List (Op × UInt64 × String)) : Prop :=
  let r := episodeServed es
  let after := r.2.1.onSnapshot Platform.sample RawStore.identity "1" r.2.2
  ∀ t ∈ [episodes], (restoreOne Platform.sample RawStore.identity after.2.2
      (manifestOf Platform.sample "1" after.2.1.heads.entries) t).toOption =
    some (arrivalTable Platform.sample RawStore.identity () []
      (acceptedEvents t.name (episodeRequests es) r.1) t)

theorem served_replays_iff_episode :
    EpisodeReplays [(.insert, 1, "a"), (.update, 2, "b")] ↔
      ∀ t ∈ [episodes], Restorable Platform.sample (episodeCols t.name) t
        (episodePieces [(.insert, 1, "a"), (.update, 2, "b")] t.name) := by
  have every : ∀ es, EpisodeReplays es ↔ ∀ t ∈ [episodes],
      Restorable Platform.sample (episodeCols t.name) t (episodePieces es t.name) := fun es =>
    served_replays_iff Platform.sample RawStore.identity (no_baseline [episodes] episodeCols)
      (episodeRequests_full es)
      (onSnapshot_identity Platform.sample (episodeServed es).2.1 "1" (episodeServed es).2.2)
  exact every _

/-- A row written twice: the two segments have equal lower keys, and the newer one is
replayed first. -/
theorem not_always_replays :
    ¬ ∀ (tables : List TrackedTable) (threshold : Nat) (version schemaVersion : String)
      (refs : List (SegmentRef Bytes)) (cols : String → List String) (rs : List Request)
      (m : SegmentManifest Bytes),
      let P := Platform.sample
      let store := RawStore.identity
      let r := served P store tables threshold version refs rs ()
      let after := r.2.1.onSnapshot P store schemaVersion r.2.2
      Baseline P store () tables cols refs → FullRequests tables cols rs →
      after.1 = .snapshot (.ok m) →
      ∀ t ∈ tables, (restoreOne P store after.2.2 m t).toOption =
        some (arrivalTable P store () refs (acceptedEvents t.name rs r.1) t) := by
  intro always
  have restorable : ∀ es, Restorable Platform.sample ["id", "note"] episodes
      (episodePieces es "episodes") := by
    intro es
    have ok := onSnapshot_identity Platform.sample (episodeServed es).2.1 "1" (episodeServed es).2.2
    have replays := always [episodes] 0 "1" "1" [] episodeCols (episodeRequests es) _
      (no_baseline _ _) (episodeRequests_full es) ok episodes List.mem_cons_self
    exact (served_restore_iff Platform.sample RawStore.identity (no_baseline [episodes] episodeCols)
      (episodeRequests_full es) List.mem_cons_self ok).mp replays
  have twice : episodePieces [(.insert, 1, "a"), (.update, 1, "b")] "episodes" =
      [⟨.ofJson (.number (.posInt 1)), [(episodeEvent .insert 1 "a").envelope]⟩,
        ⟨.ofJson (.number (.posInt 1)), [(episodeEvent .update 1 "b").envelope]⟩] := by
    decide +kernel
  have newest := (restorable [(.insert, 1, "a"), (.update, 1, "b")]).newest (.number (.posInt 1))
  rw [twice] at newest
  have notes := congrArg (Option.map (Option.map (fun row : Row => row "note"))) newest
  have differ : ∀ x y, x = some (some (Json.string "a")) → y = some (some (Json.string "b")) →
      x ≠ y := by
    rintro x y rfl rfl
    decide
  exact differ _ _ (by decide +kernel) (by decide +kernel) notes

end Streamer

end GitAgentic
