import GitAgentic.Memory.ChangeLog
import GitAgentic.Memory.SnapshotReplay

/-! The fence of a snapshot: the log is drained strictly, then the streamer is asked
for a manifest. The drain checks a row's table, operation and shape; only the
streamer looks at its key, after the row has left the log. -/
namespace GitAgentic

section

variable {Hash σ : Type} (P : Platform Hash) (store : RawStore Hash σ)

/-- The reply of the streamer to a snapshot request. -/
def Outcome.reply : Outcome Hash → Except (MemoryError Hash) (SegmentManifest Hash)
  | .snapshot result => result
  | _ => .error .streamerShutdown

inductive SnapshotError (Hash : Type) where
  | drain (cause : Triggers.DrainError)
  | schemaVersion
  | streamer (cause : MemoryError Hash)

/-- The events of the drain reach the streamer before the request. -/
def snapshot (tables : List TrackedTable) (liveVersion : Option String) (log : ChangeLog)
    (st : Streamer Hash) (s : σ) :
    Except (SnapshotError Hash) (SnapshotHandle Hash) × ChangeLog × Streamer Hash × σ :=
  let (drained, events, log) := Triggers.drainToCompletion tables liveVersion log
  let (_, st, s) := Streamer.run P store (events.map Cmd.event) st s
  match drained with
  | .error e => (.error (.drain e), log, st, s)
  | .ok _ =>
    match liveVersion with
    | none => (.error .schemaVersion, log, st, s)
    | some schemaVersion =>
      let (outcome, st, s) := st.onSnapshot P store schemaVersion s
      match outcome.reply with
      | .error e => (.error (.streamer e), log, st, s)
      | .ok manifest => (.ok { manifest, schemaVersion }, log, st, s)

end

namespace Triggers

/-- A drain that completes has checked every row and sent all of them in order. -/
theorem drainToCompletion_ok (tables : List TrackedTable) (liveVersion : Option String)
    (log : ChangeLog) (ok : (drainToCompletion tables liveVersion log).1 = .ok ()) :
    (∀ r ∈ log.entries, prevalidate tables r.2 = .ok ()) ∧
      (drainToCompletion tables liveVersion log).2.2.entries = [] ∧
      ∃ schemaVersion, (log.entries ≠ [] → liveVersion = some schemaVersion) ∧
        (drainToCompletion tables liveVersion log).2.1 =
          log.entries.filterMap (fun r => forwarded tables schemaVersion r.2) := by
  induction size : log.entries.length using Nat.strong_induction_on generalizing log with
  | _ n ih =>
    have whole := List.take_append_drop pollBatchSize log.entries
    rw [drainToCompletion] at ok ⊢
    split at ok
    · cases ok
    · rename_i outcome events log' batch
      obtain ⟨processed, left, valid, schemaVersion, live, sent⟩ := drainOnce_ok batch
      split at ok
      · rename_i none
        have empty : log.entries = [] := by
          rw [processed, select, List.length_take] at none
          have positive : 0 < pollBatchSize := by decide
          exact List.length_eq_zero_iff.mp (by omega)
        have noBatch : select log = [] := by rw [select, empty, List.take_nil]
        rw [noBatch] at sent
        simp only [dif_pos none, left, empty, sent]
        exact ⟨by simp, by simp, schemaVersion, by simp, rfl⟩
      · rename_i more
        have smaller := drainOnce_shrinks batch more
        obtain ⟨rest, empty, schemaVersion', live', later⟩ := ih _ (size ▸ smaller) log' ok rfl
        have nonempty : select log ≠ [] := by
          intro none
          rw [none] at processed
          exact more processed
        simp only [dif_neg more]
        refine ⟨?_, empty, schemaVersion, fun _ => live nonempty, ?_⟩
        · intro r hr
          rw [← whole] at hr
          rcases List.mem_append.mp hr with hr | hr
          · exact valid rfl r hr
          · exact rest r (left ▸ hr)
        · have same : log'.entries.filterMap (fun r => forwarded tables schemaVersion' r.2) =
              (log.entries.drop pollBatchSize).filterMap
                (fun r => forwarded tables schemaVersion r.2) := by
            rw [left]
            by_cases done : log.entries.drop pollBatchSize = []
            · rw [done]
              rfl
            · rw [← left] at done
              have both := (live' done).symm.trans (live nonempty)
              rw [Option.some.inj both]
          rw [later, sent, same, ← List.filterMap_append, select, whole]

theorem drainToCompletion_completes (tables : List TrackedTable) (schemaVersion : String)
    (log : ChangeLog) (valid : ∀ r ∈ log.entries, prevalidate tables r.2 = .ok ()) :
    (drainToCompletion tables (some schemaVersion) log).1 = .ok () := by
  induction size : log.entries.length using Nat.strong_induction_on generalizing log with
  | _ n ih =>
    have batch : ∃ outcome events log',
        drainOnce tables (some schemaVersion) .strict log = .ok (outcome, events, log') := by
      unfold drainOnce
      have first : ∀ r ∈ select log, prevalidate tables r.2 = .ok () :=
        fun r hr => valid r (List.mem_of_mem_take hr)
      by_cases empty : select log = []
      · exact ⟨_, _, _, if_pos empty⟩
      · simp only [if_neg empty, if_true, (prevalidateAll_ok_iff tables _).mpr first]
        exact ⟨_, _, _, rfl⟩
    obtain ⟨outcome, events, log', batch⟩ := batch
    rw [drainToCompletion]
    split
    · rename_i failed
      rw [batch] at failed
      cases failed
    · rename_i batch'
      split
      · rfl
      · rename_i more
        have left := (drainOnce_ok batch').2.1
        refine ih _ (size ▸ drainOnce_shrinks batch' more) _ ?_ rfl
        intro r hr
        rw [left] at hr
        exact valid r (List.mem_of_mem_drop hr)

theorem resolve_mem {tables : List TrackedTable} {tableName name : String}
    (h : resolve tables tableName = some name) : ∃ t ∈ tables, t.name = name := by
  have exact : (keyOf tables).get? tableName = some name → ∃ t ∈ tables, t.name = name := by
    intro found
    obtain ⟨t, mem, same⟩ := List.mem_map.mp (BTreeMap.mem_ofList (BTreeMap.get?_eq_some_iff.mp found))
    cases same
    exact ⟨t, mem, rfl⟩
  unfold resolve at h
  cases found : (keyOf tables).get? tableName with
  | some configured =>
    rw [found, Option.some_or] at h
    exact exact (found.trans h)
  | none =>
    rw [found, Option.none_or] at h
    obtain ⟨t, mem, same⟩ := List.mem_map.mp (BTreeMap.mem_ofList (BTreeMap.get?_eq_some_iff.mp h))
    exact ⟨t, List.mem_of_mem_filter mem, (Prod.mk.inj same).2⟩

end Triggers

def hasKey (pkFor : BTreeMap String String) (table : String) (row : Value) : Bool :=
  match pkFor.get? table with
  | none => false
  | some pk =>
    match row.get? pk with
    | none => false
    | some key => !key.isNull

theorem hasKey_iff {pkFor : BTreeMap String String} {table : String} {row : Value} :
    hasKey pkFor table row = true ↔ ∃ pk key, pkFor.get? table = some pk ∧
      row.get? pk = some key ∧ key.isNull = false := by
  unfold hasKey
  cases pkFor.get? table with
  | none => simp
  | some pk => cases found : row.get? pk with
    | none => simp [found]
    | some key => simp [found]

def Request.event? : Request → Option ChangeEvent
  | .event ev => some ev
  | .takeSnapshot _ => none

section

variable {Hash σ : Type} {P : Platform Hash} {store : RawStore Hash σ}

namespace Streamer

/-- Heads and keys are configured for the same tables. -/
def SameNames (st : Streamer Hash) : Prop :=
  ∀ name, (st.heads.get? name).isSome = (st.pkFor.get? name).isSome

theorem SameNames.withHead {st : Streamer Hash} (h : SameNames st) {name : String}
    {head head' : TableHead Hash} (found : st.heads.get? name = some head) :
    SameNames (st.withHead name head') := by
  intro n
  rw [get?_withHead]
  have old := h n
  split
  · rename_i same
    subst same
    rw [found] at old
    exact old
  · exact old

theorem start_sameNames (tables : List TrackedTable) (threshold : Nat) (version : String)
    (refs : List (SegmentRef Hash)) : SameNames (start tables threshold version refs) := by
  have spawned : SameNames (spawn tables threshold version : Streamer Hash) := by
    intro name
    rw [Bool.eq_iff_iff, spawn, BTreeMap.get?_ofList_isSome, BTreeMap.get?_ofList_isSome,
      List.map_map, List.map_map]
    rfl
  unfold start
  generalize (spawn tables threshold version : Streamer Hash) = st at spawned ⊢
  induction refs generalizing st with
  | nil => exact spawned
  | cons r refs ih =>
    refine ih _ ?_
    rcases st.seedOne_cases r with ⟨_, same⟩ | ⟨head, found, seeded⟩
    · rw [same]
      exact spawned
    · rw [seeded]
      exact spawned.withHead found

variable (P store) in
theorem onEvent_accepts {st : Streamer Hash} (h : SameNames st) (ev : ChangeEvent) (s : σ) :
    let r := st.onEvent P store ev s
    SameNames r.2.1 ∧ r.2.1.pkFor = st.pkFor ∧
      ∀ name, received ev r.1 name =
        if ev.table = name ∧ hasKey st.pkFor ev.table ev.row then [ev.envelope] else [] := by
  unfold onEvent
  have same := h ev.table
  cases found : st.heads.get? ev.table with
  | none =>
    rw [found] at same
    have unkeyed : st.pkFor.get? ev.table = none := by simpa using same.symm
    refine ⟨h, rfl, fun name => ?_⟩
    simp [received, hasKey, unkeyed]
  | some head =>
    rw [found] at same
    obtain ⟨pk, keyed⟩ := Option.isSome_iff_exists.mp same.symm
    simp only [keyed]
    rcases head.apply_cases ev pk with
      ⟨e, head', rejected, _⟩ | ⟨key, head', accepted, has, nonnull, _⟩
    · have missing : hasKey st.pkFor ev.table ev.row = false := by
        rw [Bool.eq_false_iff]
        intro present
        obtain ⟨pk', key, keyed', has, nonnull⟩ := hasKey_iff.mp present
        rw [keyed] at keyed'
        cases keyed'
        simp [TableHead.apply, has, nonnull] at rejected
      simp only [rejected]
      refine ⟨h.withHead found, trivial, fun name => ?_⟩
      simp [received, missing]
    · have present : hasKey st.pkFor ev.table ev.row = true :=
        hasKey_iff.mpr ⟨pk, key, keyed, has, nonnull⟩
      simp only [accepted]
      refine ⟨h.withHead found, trivial, fun name => ?_⟩
      simp [received, present]

theorem onSnapshot_sameNames {st : Streamer Hash} (h : SameNames st) (schemaVersion : String)
    (s : σ) : SameNames (st.onSnapshot P store schemaVersion s).2.1 := by
  obtain ⟨_, pk, _⟩ := st.onSnapshot_spec P store schemaVersion s
  intro name
  rw [pk, ← h name]
  rcases st.onSnapshot_head P store schemaVersion s name with
    ⟨absent, gone⟩ | ⟨head, head', before, present, _⟩
  · rw [absent, gone]
  · rw [before, present]
    rfl

variable (P store) in
theorem run_accepts {st : Streamer Hash} (h : SameNames st) (rs : List Request) (s : σ) :
    let r := run P store (rs.map Request.cmd) st s
    SameNames r.2.1 ∧ ∀ name, (acceptedEvents name rs r.1).map ChangeEvent.envelope =
      ((rs.filterMap Request.event?).filter
        (fun ev => ev.table = name ∧ hasKey st.pkFor ev.table ev.row)).map ChangeEvent.envelope := by
  induction rs generalizing st s with
  | nil => exact ⟨h, fun name => rfl⟩
  | cons request rs ih => cases request with
    | event ev =>
      obtain ⟨same, pk, first⟩ := onEvent_accepts P store h ev s
      obtain ⟨same', rest⟩ := ih same (st.onEvent P store ev s).2.2
      refine ⟨same', fun name => ?_⟩
      have step := acceptedEvents_cons name ev rs (st.onEvent P store ev s).1
        (run P store (rs.map Request.cmd) (st.onEvent P store ev s).2.1
          (st.onEvent P store ev s).2.2).1
      rw [first name, rest name, pk] at step
      refine step.trans ?_
      simp only [List.filterMap_cons, Request.event?, List.filter_cons]
      by_cases own : ev.table = name ∧ hasKey st.pkFor ev.table ev.row = true
      · rw [if_pos own, if_pos (decide_eq_true own)]
        rfl
      · rw [if_neg own, if_neg (by simpa using own)]
        rfl
    | takeSnapshot schemaVersion =>
      obtain ⟨_, pk, _⟩ := st.onSnapshot_spec P store schemaVersion s
      obtain ⟨same', rest⟩ := ih (onSnapshot_sameNames h schemaVersion s)
        (st.onSnapshot P store schemaVersion s).2.2
      refine ⟨same', fun name => ?_⟩
      rw [pk] at rest
      exact rest name

variable (P store) in
/-- What every state of a started streamer keeps. -/
structure Good (s : σ) (st : Streamer Hash) : Prop where
  named : Named st
  loaded : Loaded P store s st
  same : SameNames st

theorem Good.run {st : Streamer Hash} {s : σ} (good : st.Good P store s) (rs : List Request) :
    let r := run P store (rs.map Request.cmd) st s
    r.2.1.Good P store r.2.2 :=
  ⟨run_named P store good.named _ s, (run_log good.loaded rs).1, (run_accepts P store good.same rs s).1⟩

theorem Good.run_events {st : Streamer Hash} {s : σ} (good : st.Good P store s)
    (events : List ChangeEvent) :
    let r := Streamer.run P store (events.map Cmd.event) st s
    r.2.1.Good P store r.2.2 ∧ r.2.1.pkFor = st.pkFor ∧
      ∀ name, r.2.1.logOf P store r.2.2 name = st.logOf P store s name ++
        (events.filter (fun ev => ev.table = name ∧ hasKey st.pkFor ev.table ev.row)).map
          ChangeEvent.envelope := by
  have sent : (events.map Request.event).map Request.cmd = events.map (@Cmd.event Hash) := by
    rw [List.map_map]
    rfl
  have back : (events.map Request.event).filterMap Request.event? = events := by
    rw [List.filterMap_map]
    exact List.filterMap_some
  have kept := good.run (events.map Request.event)
  obtain ⟨_, pk, _, log⟩ := run_log good.loaded (events.map Request.event)
  obtain ⟨_, accepted⟩ := run_accepts P store good.same
    (events.map Request.event) s
  rw [sent] at kept pk log accepted
  rw [back] at accepted
  refine ⟨kept, pk, fun name => ?_⟩
  rw [log name, accepted name]

theorem served_good (tables : List TrackedTable) (threshold : Nat) (version : String)
    {refs : List (SegmentRef Hash)} {s : σ} (loads : ∀ r ∈ refs, Loads P store s r)
    (rs : List Request) :
    let r := served P store tables threshold version refs rs s
    r.2.1.Good P store r.2.2 ∧
      r.2.1.pkFor = (spawn tables threshold version : Streamer Hash).pkFor := by
  obtain ⟨loaded, pk, _⟩ := start_spec tables threshold version loads
  have start : (start tables threshold version refs).Good P store s :=
    ⟨seeds_named (spawn_named tables threshold version) refs, loaded,
      start_sameNames tables threshold version refs⟩
  exact ⟨start.run rs, (run_log loaded rs).2.1.trans pk⟩

variable (P store) in
theorem onSnapshot_rows_iff {st : Streamer Hash} (named : Named st) {s : σ}
    (loaded : Loaded P store s st) {schemaVersion : String} {m : SegmentManifest Hash}
    (ok : (st.onSnapshot P store schemaVersion s).1 = .snapshot (.ok m)) (name : String) (v : Value) :
    (∃ e ∈ m.entries, e.table = name ∧
        v ∈ rowsOf P store (st.onSnapshot P store schemaVersion s).2.2 e) ↔
      v ∈ st.logOf P store s name := by
  obtain ⟨_, arranged⟩ := onSnapshot_entries P store named loaded ok name
  rw [← flatMap_piecesOf, List.mem_flatMap]
  constructor
  · rintro ⟨e, he, own, hv⟩
    refine ⟨⟨e.pkLo, rowsOf P store _ e⟩, (Arrange.mem_arrange (pieceKey P)).mp ?_, hv⟩
    rw [← arranged]
    exact List.mem_map.mpr ⟨e, List.mem_filter.mpr ⟨he, by simpa using own⟩, rfl⟩
  · rintro ⟨p, hp, hv⟩
    rw [← Arrange.mem_arrange (pieceKey P), ← arranged] at hp
    obtain ⟨e, he, rfl⟩ := List.mem_map.mp hp
    obtain ⟨he, own⟩ := List.mem_filter.mp he
    exact ⟨e, he, by simpa using own, hv⟩

/-- An envelope whose row has a key. -/
def KeyedEnvelope (pkFor : BTreeMap String String) (name : String) (v : Value) : Prop :=
  ∃ op row, v = Value.envelope op row ∧ hasKey pkFor name row = true

theorem envelope_inj {op op' : String} {row row' : Value}
    (h : Value.envelope op row = Value.envelope op' row') : op = op' ∧ row = row' := by
  obtain ⟨first, rest⟩ := List.cons.inj (Json.object.inj (congrArg Value.json h))
  obtain ⟨second, _⟩ := List.cons.inj rest
  exact ⟨Json.string.inj (Prod.mk.inj first).2, Value.ext (Prod.mk.inj second).2⟩

theorem served_keyed {tables : List TrackedTable} {threshold : Nat} {version : String}
    {refs : List (SegmentRef Hash)} {s : σ} (loads : ∀ r ∈ refs, Loads P store s r)
    (keyed : ∀ r ∈ refs, ∀ v ∈ rowsOf P store s r,
      KeyedEnvelope (spawn tables threshold version : Streamer Hash).pkFor r.table v)
    (rs : List Request) {t : TrackedTable} (mem : t ∈ tables) :
    let r := served P store tables threshold version refs rs s
    ∀ v ∈ r.2.1.logOf P store r.2.2 t.name,
      KeyedEnvelope (spawn tables threshold version : Streamer Hash).pkFor t.name v := by
  intro r v hv
  obtain ⟨loaded, pk, started⟩ := start_spec tables threshold version loads
  obtain ⟨_, _, _, log⟩ := run_log loaded rs
  obtain ⟨_, accepted⟩ := run_accepts P store
    (start_sameNames tables threshold version refs) rs s
  have rows := (log t.name).trans (congrArg (· ++ _) (started t mem))
  rw [accepted t.name, pk] at rows
  rw [show r.2.1.logOf P store r.2.2 t.name = _ from rows] at hv
  rcases List.mem_append.mp hv with hv | hv
  · obtain ⟨q, hq, hv⟩ := List.mem_flatMap.mp hv
    obtain ⟨hq, own⟩ := List.mem_filter.mp hq
    have same : q.table = t.name := by simpa using own
    exact same ▸ keyed q hq v hv
  · obtain ⟨ev, hev, rfl⟩ := List.mem_map.mp hv
    obtain ⟨_, own⟩ := List.mem_filter.mp hev
    simp only [Bool.decide_and, Bool.decide_eq_true, Bool.and_eq_true, decide_eq_true_eq] at own
    exact ⟨_, _, rfl, own.1 ▸ own.2⟩

end Streamer

theorem snapshot_ok {tables : List TrackedTable} {liveVersion : Option String} {log : ChangeLog}
    {st : Streamer Hash} {s : σ} {h : SnapshotHandle Hash}
    (ok : (snapshot P store tables liveVersion log st s).1 = .ok h) :
    (∀ r ∈ log.entries, Triggers.prevalidate tables r.2 = .ok ()) ∧ liveVersion = some h.schemaVersion ∧
      let events := log.entries.filterMap (fun r => Triggers.forwarded tables h.schemaVersion r.2)
      let r := Streamer.run P store (events.map Cmd.event) st s
      let after := r.2.1.onSnapshot P store h.schemaVersion r.2.2
      after.1 = .snapshot (.ok h.manifest) ∧
        (snapshot P store tables liveVersion log st s).2 = (.empty, after.2) := by
  unfold snapshot at ok ⊢
  cases drain : Triggers.drainToCompletion tables liveVersion log with
  | mk drained rest =>
    obtain ⟨events, log'⟩ := rest
    have complete := Triggers.drainToCompletion_ok tables liveVersion log
    rw [drain] at complete
    simp only at complete
    simp only [drain] at ok ⊢
    cases drained with
    | error e => cases ok
    | ok u =>
      obtain ⟨valid, empty, schemaVersion, live, sent⟩ := complete rfl
      cases liveVersion with
      | none => cases ok
      | some version =>
        simp only at ok
        split at ok
        · cases ok
        · rename_i manifest replied
          cases ok
          have same : events = log.entries.filterMap
              (fun r => Triggers.forwarded tables version r.2) := by
            rw [sent]
            by_cases none : log.entries = []
            · rw [none]
              rfl
            · rw [Option.some.inj (live none)]
          refine ⟨valid, rfl, ?_, ?_⟩
          · rw [← same]
            exact congrArg Outcome.snapshot replied
          · simp only [replied, ← same, BTreeMap.ext (n := .empty) empty]

/-- The row has a key in the column configured for its table. -/
def Keyed (tables : List TrackedTable) (pkFor : BTreeMap String String) (r : LogRow) : Prop :=
  ∃ tableName name row, r.tableName = some tableName ∧
    Triggers.resolve tables tableName = some name ∧ r.row = some row ∧ hasKey pkFor name row = true

variable (P store) in
/-- The row is listed as an envelope in a segment of its table. -/
def Appears (tables : List TrackedTable) (s : σ) (m : SegmentManifest Hash) (r : LogRow) : Prop :=
  ∃ tableName name op row, r = ⟨some tableName, some op, some row⟩ ∧
    Triggers.resolve tables tableName = some name ∧
    ∃ e ∈ m.entries, e.table = name ∧ Value.envelope op row ∈ rowsOf P store s e

theorem forwarded_of_valid {tables : List TrackedTable} (schemaVersion : String) {r : LogRow}
    (valid : Triggers.prevalidate tables r = .ok ()) :
    ∃ ev tableName, Triggers.forwarded tables schemaVersion r = some ev ∧
      r = ⟨some tableName, some ev.op.name, some ev.row⟩ ∧
      Triggers.resolve tables tableName = some ev.table := by
  obtain ⟨ev, found⟩ := Option.isSome_iff_exists.mp
    ((Triggers.prevalidate_ok_iff tables schemaVersion r).mp valid)
  obtain ⟨tableName, shape, resolved, _⟩ := Triggers.forwarded_eq_some_iff.mp found
  exact ⟨ev, tableName, found, shape, resolved⟩

section

variable {tables : List TrackedTable} {liveVersion : Option String} {log : ChangeLog}
  {st : Streamer Hash} {s : σ} {h : SnapshotHandle Hash}

theorem snapshot_rows_iff (good : st.Good P store s)
    (ok : (snapshot P store tables liveVersion log st s).1 = .ok h) (name : String) (v : Value) :
    (∃ e ∈ h.manifest.entries, e.table = name ∧
        v ∈ rowsOf P store (snapshot P store tables liveVersion log st s).2.2.2 e) ↔
      v ∈ st.logOf P store s name ∨ ∃ e ∈ log.entries, ∃ ev,
        Triggers.forwarded tables h.schemaVersion e.2 = some ev ∧ ev.table = name ∧
          hasKey st.pkFor ev.table ev.row = true ∧ v = ev.envelope := by
  obtain ⟨_, _, done, rest⟩ := snapshot_ok ok
  obtain ⟨good', _, log'⟩ := good.run_events
    (log.entries.filterMap (fun e => Triggers.forwarded tables h.schemaVersion e.2))
  have listed := Streamer.onSnapshot_rows_iff P store good'.named good'.loaded done name v
  rw [rest, listed, log' name, List.mem_append, List.mem_map]
  refine or_congr_right ?_
  constructor
  · rintro ⟨ev, hev, rfl⟩
    obtain ⟨mem, own⟩ := List.mem_filter.mp hev
    obtain ⟨e, he, found⟩ := List.mem_filterMap.mp mem
    have own := of_decide_eq_true own
    exact ⟨e, he, ev, found, own.1, own.2, rfl⟩
  · rintro ⟨e, he, ev, found, own, key, rfl⟩
    exact ⟨ev, List.mem_filter.mpr ⟨List.mem_filterMap.mpr ⟨e, he, found⟩,
      decide_eq_true ⟨own, key⟩⟩, rfl⟩

theorem snapshot_row_iff (good : st.Good P store s)
    (keyed : ∀ t ∈ tables, ∀ v ∈ st.logOf P store s t.name,
      Streamer.KeyedEnvelope st.pkFor t.name v)
    (ok : (snapshot P store tables liveVersion log st s).1 = .ok h) {e : Nat × LogRow}
    (he : e ∈ log.entries) :
    Appears P store tables (snapshot P store tables liveVersion log st s).2.2.2 h.manifest e.2 ↔
      Keyed tables st.pkFor e.2 := by
  obtain ⟨valid, _⟩ := snapshot_ok ok
  obtain ⟨ev, tableName, found, shape, resolved⟩ :=
    forwarded_of_valid h.schemaVersion (valid e he)
  constructor
  · rintro ⟨tableName', name, op, row, shape', resolved', listed⟩
    obtain ⟨t, mem, rfl⟩ := Triggers.resolve_mem resolved'
    refine ⟨tableName', t.name, row, by rw [shape'], resolved', by rw [shape'], ?_⟩
    rcases (snapshot_rows_iff good ok t.name _).mp listed with old | ⟨_, _, ev', _, own, key, same⟩
    · obtain ⟨op', row', same, key⟩ := keyed t mem _ old
      rw [(Streamer.envelope_inj same).2]
      exact key
    · rw [(Streamer.envelope_inj same).2, ← own]
      exact key
  · rintro ⟨tableName', name, row, hname, resolved', hrow, key⟩
    rw [shape] at hname hrow
    cases hname
    cases hrow
    rw [resolved] at resolved'
    cases resolved'
    exact ⟨tableName, ev.table, ev.op.name, ev.row, shape, resolved,
      (snapshot_rows_iff good ok ev.table _).mpr (Or.inr ⟨e, he, ev, found, rfl, key, rfl⟩)⟩

end

/-- Rows the fence let through appear in the manifest exactly when all of them have a
key; one without is dropped after it has left the log. -/
theorem snapshot_appears_iff {tables : List TrackedTable} {threshold : Nat} {version : String}
    {refs : List (SegmentRef Hash)} {s : σ} (loads : ∀ r ∈ refs, Loads P store s r)
    (keyed : ∀ r ∈ refs, ∀ v ∈ rowsOf P store s r,
      Streamer.KeyedEnvelope (Streamer.spawn tables threshold version : Streamer Hash).pkFor r.table v)
    (rs : List Request) (log : ChangeLog) (liveVersion : Option String) {h : SnapshotHandle Hash} :
    let r := Streamer.served P store tables threshold version refs rs s
    let after := snapshot P store tables liveVersion log r.2.1 r.2.2
    after.1 = .ok h →
    ((∀ e ∈ log.entries, Appears P store tables after.2.2.2 h.manifest e.2) ↔
      ∀ e ∈ log.entries, Keyed tables r.2.1.pkFor e.2) := by
  intro r after ok
  obtain ⟨good, pk⟩ := Streamer.served_good tables threshold version loads rs
  refine forall₂_congr (fun e he => snapshot_row_iff good ?_ ok he)
  intro t mem v hv
  rw [pk]
  exact Streamer.served_keyed loads keyed rs mem v hv

theorem snapshot_identity (P : Platform Bytes) {tables : List TrackedTable} {log : ChangeLog}
    (valid : ∀ r ∈ log.entries, Triggers.prevalidate tables r.2 = .ok ()) (version : String)
    (st : Streamer Bytes) (s : Unit) :
    ∃ h, (snapshot P RawStore.identity tables (some version) log st s).1 = .ok h := by
  have complete := Triggers.drainToCompletion_completes tables version log valid
  unfold snapshot
  cases drain : Triggers.drainToCompletion tables (some version) log with
  | mk drained rest =>
    rw [drain] at complete
    simp only at complete
    subst complete
    simp only [Streamer.onSnapshot_identity, Outcome.reply]
    exact ⟨_, rfl⟩

end

/-- One event was received before, and two rows are in the log. -/
def twoRows : ChangeLog :=
  BTreeMap.ofList [(1, ⟨some "public.episodes", some "insert", some (episode 1 "a")⟩),
    (2, ⟨some "public.episodes", some "update", some (episode 1 "b")⟩)]

theorem twoRows_entries {e : Nat × LogRow} (mem : e ∈ twoRows.entries) :
    e = (1, ⟨some "public.episodes", some "insert", some (episode 1 "a")⟩) ∨
      e = (2, ⟨some "public.episodes", some "update", some (episode 1 "b")⟩) := by
  have listed : twoRows.entries = [_, _] := rfl
  rw [listed] at mem
  simpa using mem

/-- The snapshot that is taken of a log after some events. -/
def episodeSnapshot (es : List (Op × UInt64 × String)) (log : ChangeLog) :
    Except (SnapshotError Bytes) (SnapshotHandle Bytes) × ChangeLog × Streamer Bytes × Unit :=
  snapshot Platform.sample RawStore.identity [episodes] (some "1") log (Streamer.episodeServed es).2.1
    (Streamer.episodeServed es).2.2

theorem snapshot_appears_iff_episode : ∃ h, (episodeSnapshot [(.insert, 3, "c")] twoRows).1 = .ok h ∧
    ∀ e ∈ twoRows.entries, Appears Platform.sample RawStore.identity [episodes]
      (episodeSnapshot [(.insert, 3, "c")] twoRows).2.2.2 h.manifest e.2 := by
  have resolved : Triggers.resolve [episodes] "public.episodes" = some "episodes" := by decide
  have valid : ∀ e ∈ twoRows.entries, Triggers.prevalidate [episodes] e.2 = .ok () := by
    intro e mem
    rcases twoRows_entries mem with rfl | rfl
    · simp [Triggers.prevalidate, resolved]
    · simp [Triggers.prevalidate, resolved]
  have keyed : ∀ e ∈ twoRows.entries,
      Keyed [episodes] (Streamer.episodeServed [(.insert, 3, "c")]).2.1.pkFor e.2 := by
    intro e mem
    rcases twoRows_entries mem with rfl | rfl
    · exact ⟨_, _, _, rfl, resolved, rfl, by decide +kernel⟩
    · exact ⟨_, _, _, rfl, resolved, rfl, by decide +kernel⟩
  have every : ∀ es log h, (episodeSnapshot es log).1 = .ok h →
      ((∀ e ∈ log.entries, Appears Platform.sample RawStore.identity [episodes] (episodeSnapshot es log).2.2.2
          h.manifest e.2) ↔
        ∀ e ∈ log.entries, Keyed [episodes] (Streamer.episodeServed es).2.1.pkFor e.2) := fun es log h ok =>
    snapshot_appears_iff (P := Platform.sample) (by simp) (by simp) (Streamer.episodeRequests es) log (some "1") ok
  obtain ⟨h, ok⟩ := snapshot_identity Platform.sample valid "1" (Streamer.episodeServed [(.insert, 3, "c")]).2.1
    (Streamer.episodeServed [(.insert, 3, "c")]).2.2
  exact ⟨h, ok, (every _ _ h ok).mpr keyed⟩

def episodeLog (row : Value) : ChangeLog :=
  BTreeMap.ofList [(1, ⟨some "public.episodes", some "insert", some row⟩)]

theorem episodeLog_valid (row : Value) :
    ∀ r ∈ (episodeLog row).entries, Triggers.prevalidate [episodes] r.2 = .ok () := by
  intro r hr
  cases List.mem_singleton.mp hr
  have resolved : Triggers.resolve [episodes] "public.episodes" = some "episodes" := by decide
  simp [Triggers.prevalidate, resolved]

/-- A row without its key column passes the fence, is dropped, and the snapshot succeeds. -/
theorem not_always_appears :
    ¬ ∀ (tables : List TrackedTable) (threshold : Nat) (version : String)
      (rs : List Request) (log : ChangeLog) (liveVersion : Option String) (h : SnapshotHandle Bytes),
      let P := Platform.sample
      let store := RawStore.identity
      let r := Streamer.served P store tables threshold version [] rs ()
      let after := snapshot P store tables liveVersion log r.2.1 r.2.2
      after.1 = .ok h → ∀ e ∈ log.entries, Appears P store tables after.2.2.2 h.manifest e.2 := by
  intro always
  let row : Value := .ofJson (.object [("note", .string "a")])
  have valid := episodeLog_valid row
  obtain ⟨h, ok⟩ := snapshot_identity Platform.sample valid "1"
    (Streamer.episodeServed []).2.1 (Streamer.episodeServed []).2.2
  have first : (1, ⟨some "public.episodes", some "insert", some row⟩) ∈ (episodeLog row).entries :=
    List.mem_cons_self
  have appears := always [episodes] 0 "1" [] (episodeLog row) (some "1") h ok _ first
  obtain ⟨good, _⟩ : _ ∧ (Streamer.episodeServed []).2.1.pkFor = _ :=
    Streamer.served_good [episodes] 0 "1" (by simp) []
  have blank : ∀ t ∈ [episodes], ∀ v ∈ (Streamer.episodeServed []).2.1.logOf Platform.sample
      RawStore.identity () t.name,
      Streamer.KeyedEnvelope (Streamer.episodeServed []).2.1.pkFor t.name v := by
    intro t ht v hv
    cases List.mem_singleton.mp ht
    cases hv
  obtain ⟨tableName, name, row', hname, resolved, hrow, key⟩ :=
    (snapshot_row_iff good blank ok first).mp appears
  cases hname
  cases hrow
  have emitted : Triggers.resolve [episodes] "public.episodes" = some "episodes" := by decide
  rw [emitted] at resolved
  cases resolved
  have missing : hasKey (Streamer.episodeServed []).2.1.pkFor "episodes" row = false := by decide
  exact Bool.false_ne_true (missing.symm.trans key)

end GitAgentic
