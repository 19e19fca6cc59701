import GitAgentic.Memory.Drainers

/-! Whether a committed change can be lost. A drain deletes a range of ids, but the ids
below its batch are not all visible when it reads: a transaction may still commit a
smaller one. -/
namespace GitAgentic

namespace Drainers

/-- Nothing is open, and what is in the log has been committed. -/
structure Initial (w : World) : Prop where
  pending : ∀ tx, w.pending tx = []
  drain : ∀ who, w.drain who = none
  sent : w.sent = []
  committed : w.committed = w.log.entries
  ids : ∀ r ∈ w.log.entries, r.1 ≤ w.lastId

variable (tables : List TrackedTable)

/-- The row has been sent to the streamer, as an event of its own. -/
def Sent (w : World) (r : Nat × LogRow) : Prop :=
  ∃ ev schemaVersion, Triggers.forwarded tables schemaVersion r.2 = some ev ∧ (r.1, ev) ∈ w.sent

/-- Every committed row that a drain may forward has been sent or is still in the log. -/
def NothingLost (w : World) : Prop :=
  ∀ r ∈ w.committed, Triggers.prevalidate tables r.2 = .ok () → r ∈ w.log.entries ∨ Sent tables w r

/-- A transaction that commits while a batch is held has only ids above the batch. -/
def Timely (w : World) : Act → Prop
  | .commit tx => ∀ who b, w.drain who = some b →
      ∀ r ∈ w.pending tx, Triggers.maxId b.rows < r.1
  | _ => True

/-- What is in the log was committed, and an id that is still to commit is no other row's. -/
structure Ids (w : World) : Prop where
  logCommitted : ∀ r ∈ w.log.entries, r ∈ w.committed
  committedIds : ∀ r ∈ w.committed, r.1 ≤ w.lastId
  single : ∀ r ∈ w.committed, ∀ q ∈ w.committed, q.1 = r.1 → q = r
  pendingIds : ∀ tx, ∀ r ∈ w.pending tx, r.1 ≤ w.lastId
  fresh : ∀ tx, ∀ r ∈ w.pending tx, ∀ q ∈ w.committed, q.1 ≠ r.1
  distinct : ∀ tx, ((w.pending tx).map Prod.fst).Nodup
  apart : ∀ tx tx', tx ≠ tx' → ∀ r ∈ w.pending tx, ∀ q ∈ w.pending tx', q.1 ≠ r.1

/-- A held batch has all rows of the log up to its end, and none of them is lost. -/
structure Inv (w : World) : Prop where
  ids : Ids w
  handled : ∀ who b, w.drain who = some b → ∀ r ∈ b.rows,
    r ∈ b.rest ∨ (Triggers.prevalidate tables r.2 = .ok () → Sent tables w r)
  covered : ∀ who b, w.drain who = some b → ∀ r ∈ w.log.entries,
    r.1 ≤ Triggers.maxId b.rows → r ∈ b.rows
  kept : NothingLost tables w

variable {tables}

theorem Initial.idsKept {w : World} (h : Initial w) : Ids w where
  logCommitted r hr := h.committed ▸ hr
  committedIds r hr := h.ids r (h.committed ▸ hr)
  single r hr q hq same := by
    rw [h.committed] at hr hq
    have one := (BTreeMap.get?_eq_some_iff (k := q.1)).mpr hq
    rw [same, BTreeMap.get?_eq_some_iff.mpr hr] at one
    exact Prod.ext same (Option.some.inj one).symm
  pendingIds tx r hr := by simp [h.pending tx] at hr
  fresh tx r hr := by simp [h.pending tx] at hr
  distinct tx := by simp [h.pending tx]
  apart tx tx' _ r hr := by simp [h.pending tx] at hr

theorem Initial.inv {w : World} (h : Initial w) : Inv tables w where
  ids := h.idsKept
  handled who b hb := by simp [h.drain who] at hb
  covered who b hb := by simp [h.drain who] at hb
  kept r hr _ := Or.inl (h.committed ▸ hr)

theorem mem_commitRows {rows : List (Nat × LogRow)} {log : ChangeLog}
    (fresh : ∀ r ∈ rows, ∀ q ∈ log.entries, q.1 ≠ r.1) (distinct : (rows.map Prod.fst).Nodup)
    {e : Nat × LogRow} : e ∈ (commitRows rows log).entries ↔ e ∈ log.entries ∨ e ∈ rows := by
  induction rows generalizing log with
  | nil => simp [commitRows]
  | cons r rows ih =>
    obtain ⟨notIn, distinct⟩ := List.nodup_cons.mp distinct
    have free := fresh r List.mem_cons_self
    have inserted : ∀ q, q ∈ (log.insert r.1 r.2).entries ↔ q = r ∨ q ∈ log.entries := by
      intro q
      rw [BTreeMap.mem_insert_iff]
      exact or_congr_right ⟨fun h => h.1, fun h => ⟨h, free q h⟩⟩
    have rest := @ih (log.insert r.1 r.2) (by
      intro x hx q hq
      rcases (inserted q).mp hq with rfl | hq
      · exact fun same => notIn (List.mem_map.mpr ⟨x, hx, same.symm⟩)
      · exact fresh x (List.mem_cons_of_mem _ hx) q hq) distinct
    refine Iff.trans rest ?_
    rw [inserted, List.mem_cons]
    tauto

theorem Sent.mono {w w' : World} {r : Nat × LogRow} (h : Sent tables w r)
    (more : ∀ x ∈ w.sent, x ∈ w'.sent) : Sent tables w' r := by
  obtain ⟨ev, schemaVersion, found, mem⟩ := h
  exact ⟨ev, schemaVersion, found, more _ mem⟩

theorem le_maxId_of_select {log : ChangeLog} {r : Nat × LogRow} (mem : r ∈ log.entries)
    (below : r.1 ≤ Triggers.maxId (Triggers.select log)) (nonempty : Triggers.select log ≠ []) :
    r ∈ Triggers.select log := by
  have whole := List.take_append_drop Triggers.pollBatchSize log.entries
  rw [← whole] at mem
  rcases List.mem_append.mp mem with mem | mem
  · exact mem
  · rw [← Triggers.deleteUpTo_select log nonempty] at mem
    exact absurd below (by simpa using (List.mem_filter.mp mem).2)

theorem drain_update_cases {drain : Who → Option Batch} {who who' : Who} {o : Option Batch}
    {b : Batch} (h : Function.update drain who o who' = some b) :
    who' = who ∧ o = some b ∨ who' ≠ who ∧ drain who' = some b := by
  by_cases own : who' = who
  · subst own
    rw [Function.update_self] at h
    exact Or.inl ⟨rfl, h⟩
  · rw [Function.update_of_ne own] at h
    exact Or.inr ⟨own, h⟩

theorem Ids.mem_commit {w : World} (ids : Ids w) (tx : Nat) {e : Nat × LogRow} :
    e ∈ (commitRows (w.pending tx) w.log).entries ↔ e ∈ w.log.entries ∨ e ∈ w.pending tx :=
  mem_commitRows (fun r hr q hq => ids.fresh tx r hr q (ids.logCommitted q hq)) (ids.distinct tx)

theorem pending_left {w : World} {tx tx' : Nat} {r : Nat × LogRow}
    (h : r ∈ Function.update w.pending tx [] tx') : tx' ≠ tx ∧ r ∈ w.pending tx' := by
  by_cases own : tx' = tx
  · subst own
    simp at h
  · rw [Function.update_of_ne own] at h
    exact ⟨own, h⟩

theorem pending_left_distinct {w : World} (ids : Ids w) (tx tx' : Nat) :
    ((Function.update w.pending tx [] tx').map Prod.fst).Nodup := by
  by_cases own : tx' = tx
  · subst own
    simp
  · rw [Function.update_of_ne own]
    exact ids.distinct tx'

theorem Ids.insert {w : World} (ids : Ids w) (tx : Nat) (row : LogRow) :
    Ids (step tables w (.insert tx row)) := by
  have cases_ : ∀ tx' r, r ∈ Function.update w.pending tx
        (w.pending tx ++ [(w.lastId + 1, row)]) tx' →
      r ∈ w.pending tx' ∨ tx' = tx ∧ r = (w.lastId + 1, row) := by
    intro tx' r hr
    by_cases own : tx' = tx
    · subst own
      rw [Function.update_self] at hr
      exact (List.mem_append.mp hr).imp id (fun h => ⟨rfl, List.mem_singleton.mp h⟩)
    · rw [Function.update_of_ne own] at hr
      exact Or.inl hr
  refine ⟨ids.logCommitted, ?_, ids.single, ?_, ?_, ?_, ?_⟩
  · intro r hr
    exact (ids.committedIds r hr).trans (Nat.le_succ _)
  · intro tx' r hr
    rcases cases_ tx' r hr with hr | ⟨_, rfl⟩
    · exact (ids.pendingIds tx' r hr).trans (Nat.le_succ _)
    · exact Nat.le_refl _
  · intro tx' r hr q hq
    rcases cases_ tx' r hr with hr | ⟨_, rfl⟩
    · exact ids.fresh tx' r hr q hq
    · exact (Nat.lt_succ_of_le (ids.committedIds q hq)).ne
  · intro tx'
    by_cases own : tx' = tx
    · subst own
      simp only [step, Function.update_self, List.map_append, List.map_singleton]
      refine List.nodup_append.mpr ⟨ids.distinct tx', List.nodup_singleton _, ?_⟩
      intro a ha b hb
      obtain ⟨r, hr, rfl⟩ := List.mem_map.mp ha
      rw [List.mem_singleton.mp hb]
      exact (Nat.lt_succ_of_le (ids.pendingIds tx' r hr)).ne
    · simp only [step, Function.update_of_ne own]
      exact ids.distinct tx'
  · intro tx' tx'' different r hr q hq
    rcases cases_ tx' r hr with old | ⟨own, rfl⟩
    · rcases cases_ tx'' q hq with old' | ⟨_, rfl⟩
      · exact ids.apart tx' tx'' different r old q old'
      · exact (Nat.lt_succ_of_le (ids.pendingIds tx' r old)).ne'
    · rcases cases_ tx'' q hq with old' | ⟨own', rfl⟩
      · exact (Nat.lt_succ_of_le (ids.pendingIds tx'' q old')).ne
      · exact absurd (own.trans own'.symm) different

theorem Ids.commit {w : World} (ids : Ids w) (tx : Nat) : Ids (step tables w (.commit tx)) where
  logCommitted r hr := by
    rcases (ids.mem_commit tx).mp hr with hr | hr
    · exact List.mem_append_left _ (ids.logCommitted r hr)
    · exact List.mem_append_right _ hr
  committedIds r hr := (List.mem_append.mp hr).elim (ids.committedIds r) (ids.pendingIds tx r)
  single := by
    intro r hr q hq same
    rcases List.mem_append.mp hr with hr | hr <;> rcases List.mem_append.mp hq with hq | hq
    · exact ids.single r hr q hq same
    · exact absurd same.symm (ids.fresh tx q hq r hr)
    · exact absurd same (ids.fresh tx r hr q hq)
    · exact List.inj_on_of_nodup_map (ids.distinct tx) hq hr same
  pendingIds tx' r hr := ids.pendingIds tx' r (pending_left hr).2
  fresh := by
    intro tx' r hr q hq
    obtain ⟨other, hr⟩ := pending_left hr
    exact (List.mem_append.mp hq).elim (ids.fresh tx' r hr q) (ids.apart tx' tx other r hr q)
  distinct := pending_left_distinct ids tx
  apart tx' tx'' different r hr q hq :=
    ids.apart tx' tx'' different r (pending_left hr).2 q (pending_left hq).2

theorem Ids.rollback {w : World} (ids : Ids w) (tx : Nat) : Ids (step tables w (.rollback tx)) where
  logCommitted := ids.logCommitted
  committedIds := ids.committedIds
  single := ids.single
  pendingIds tx' r hr := ids.pendingIds tx' r (pending_left hr).2
  fresh tx' r hr := ids.fresh tx' r (pending_left hr).2
  distinct := pending_left_distinct ids tx
  apart tx' tx'' different r hr q hq :=
    ids.apart tx' tx'' different r (pending_left hr).2 q (pending_left hq).2

theorem Ids.delete {w : World} (ids : Ids w) (id : Nat) :
    Ids { w with log := Triggers.deleteUpTo id w.log } where
  logCommitted r hr := ids.logCommitted r (List.mem_of_mem_filter hr)
  committedIds := ids.committedIds
  single := ids.single
  pendingIds := ids.pendingIds
  fresh := ids.fresh
  distinct := ids.distinct
  apart := ids.apart

theorem Ids.step {w : World} (ids : Ids w) (act : Act) : Ids (step tables w act) := by
  cases act with
  | insert tx row => exact ids.insert tx row
  | commit tx => exact ids.commit tx
  | rollback tx => exact ids.rollback tx
  | select who liveVersion =>
    simp only [Drainers.step]
    split <;> exact ⟨ids.1, ids.2, ids.3, ids.4, ids.5, ids.6, ids.7⟩
  | forward who =>
    simp only [Drainers.step]
    split <;> exact ⟨ids.1, ids.2, ids.3, ids.4, ids.5, ids.6, ids.7⟩
  | delete who =>
    simp only [Drainers.step]
    split
    · rename_i rows _
      have left := ids.delete (Triggers.maxId rows)
      exact ⟨left.1, left.2, left.3, left.4, left.5, left.6, left.7⟩
    · exact ids
  | stop who => exact ⟨ids.1, ids.2, ids.3, ids.4, ids.5, ids.6, ids.7⟩

theorem Inv.forward {w : World} (inv : Inv tables w) {who : Who} {schemaVersion : String}
    {rows rest : List (Nat × LogRow)} {r : Nat × LogRow}
    (holds : w.drain who = some ⟨schemaVersion, rows, r :: rest⟩)
    (ids : Ids (step tables w (.forward who))) : Inv tables (step tables w (.forward who)) := by
  simp only [step, holds] at ids ⊢
  refine ⟨ids, ?_, ?_, ?_⟩
  · intro who' b hb q hq
    have sends : Triggers.prevalidate tables r.2 = .ok () →
        ∃ ev, Triggers.forwarded tables schemaVersion r.2 = some ev ∧
          (r.1, ev) ∈ (eventOf tables schemaVersion r).toList := by
      intro valid
      obtain ⟨ev, found⟩ := Option.isSome_iff_exists.mp
        ((Triggers.prevalidate_ok_iff tables schemaVersion r.2).mp valid)
      exact ⟨ev, found, by simp [eventOf, found]⟩
    rcases drain_update_cases hb with ⟨rfl, same⟩ | ⟨_, hb⟩
    · cases same
      rcases inv.handled who' _ holds q hq with unsent | done
      · rcases List.mem_cons.mp unsent with rfl | unsent
        · refine Or.inr (fun valid => ?_)
          obtain ⟨ev, found, mem⟩ := sends valid
          exact ⟨ev, schemaVersion, found, List.mem_append_right _ mem⟩
        · exact Or.inl unsent
      · exact Or.inr (fun valid => (done valid).mono (fun x hx => List.mem_append_left _ hx))
    · rcases inv.handled who' b hb q hq with unsent | done
      · exact Or.inl unsent
      · exact Or.inr (fun valid => (done valid).mono (fun x hx => List.mem_append_left _ hx))
  · intro who' b hb
    rcases drain_update_cases hb with ⟨rfl, same⟩ | ⟨_, hb⟩
    · cases same
      exact inv.covered who' ⟨schemaVersion, rows, r :: rest⟩ holds
    · exact inv.covered who' b hb
  · exact fun q hq valid =>
      (inv.kept q hq valid).imp id (fun done => done.mono (fun x hx => List.mem_append_left _ hx))

theorem Inv.delete {w : World} (inv : Inv tables w) {who : Who} {schemaVersion : String}
    {rows : List (Nat × LogRow)} (holds : w.drain who = some ⟨schemaVersion, rows, []⟩)
    (ids : Ids (step tables w (.delete who))) : Inv tables (step tables w (.delete who)) := by
  simp only [step, holds] at ids ⊢
  refine ⟨ids, ?_, ?_, ?_⟩
  · intro who' b hb
    rcases drain_update_cases hb with ⟨_, same⟩ | ⟨_, hb⟩
    · cases same
    · exact inv.handled who' b hb
  · intro who' b hb r hr
    rcases drain_update_cases hb with ⟨_, same⟩ | ⟨_, hb⟩
    · cases same
    · exact inv.covered who' b hb r (List.mem_of_mem_filter hr)
  · intro r hr valid
    rcases inv.kept r hr valid with present | done
    · by_cases below : r.1 ≤ Triggers.maxId rows
      · have read := inv.covered who _ holds r present below
        rcases inv.handled who _ holds r read with unsent | done
        · cases unsent
        · exact Or.inr (done valid)
      · exact Or.inl (List.mem_filter.mpr ⟨present, by simpa using below⟩)
    · exact Or.inr done

theorem Inv.commit {w : World} (inv : Inv tables w) {tx : Nat} (timely : Timely w (.commit tx)) :
    Inv tables (step tables w (.commit tx)) := by
  refine ⟨inv.ids.step _, inv.handled, ?_, ?_⟩
  · intro who b hb r hr below
    rcases (inv.ids.mem_commit tx).mp hr with hr | hr
    · exact inv.covered who b hb r hr below
    · exact absurd below (not_le.mpr (timely who b hb r hr))
  · intro r hr valid
    rcases List.mem_append.mp hr with hr | hr
    · exact (inv.kept r hr valid).imp (fun present => (inv.ids.mem_commit tx).mpr (Or.inl present)) id
    · exact Or.inl ((inv.ids.mem_commit tx).mpr (Or.inr hr))

theorem Inv.stop {w : World} (inv : Inv tables w) (who : Who) :
    Inv tables (step tables w (.stop who)) := by
  refine ⟨inv.ids.step _, ?_, ?_, inv.kept⟩
  · intro who' b hb
    rcases drain_update_cases hb with ⟨_, same⟩ | ⟨_, hb⟩
    · cases same
    · exact inv.handled who' b hb
  · intro who' b hb
    rcases drain_update_cases hb with ⟨_, same⟩ | ⟨_, hb⟩
    · cases same
    · exact inv.covered who' b hb

theorem Inv.select {w : World} (inv : Inv tables w) (who : Who) (liveVersion : Option String) :
    Inv tables (step tables w (.select who liveVersion)) := by
  have ids : Ids (step tables w (.select who liveVersion)) := inv.ids.step _
  cases held : w.drain who with
  | some b =>
    simp only [step, held]
    exact inv
  | none =>
    simp only [step, held] at ids ⊢
    have other : ∀ who' b, Function.update w.drain who (startBatch tables who liveVersion w.log) who' =
        some b → w.drain who' = some b ∨ b.rows = Triggers.select w.log ∧
          b.rest = Triggers.select w.log ∧ Triggers.select w.log ≠ [] := by
      intro who' b hb
      rcases drain_update_cases hb with ⟨_, started⟩ | ⟨_, hb⟩
      · obtain ⟨rows, rest⟩ := startBatch_cases started
        refine Or.inr ⟨rows, rest, ?_⟩
        intro empty
        simp [startBatch, empty] at started
      · exact Or.inl hb
    refine ⟨ids, ?_, ?_, inv.kept⟩
    · intro who' b hb r hr
      rcases other who' b hb with hb | ⟨rows, rest, _⟩
      · exact inv.handled who' b hb r hr
      · rw [rows] at hr
        rw [rest]
        exact Or.inl hr
    · intro who' b hb r hr below
      rcases other who' b hb with hb | ⟨rows, _, nonempty⟩
      · exact inv.covered who' b hb r hr below
      · rw [rows] at below ⊢
        exact le_maxId_of_select hr below nonempty

theorem Inv.step {w : World} (inv : Inv tables w) {act : Act} (timely : Timely w act) :
    Inv tables (step tables w act) := by
  cases act with
  | insert tx row => exact ⟨inv.ids.step _, inv.handled, inv.covered, inv.kept⟩
  | commit tx => exact inv.commit timely
  | rollback tx => exact ⟨inv.ids.step _, inv.handled, inv.covered, inv.kept⟩
  | select who liveVersion => exact inv.select who liveVersion
  | forward who =>
    rcases forward_cases tables w who with ⟨_, _, _, _, holds⟩ | same
    · exact inv.forward holds (inv.ids.step _)
    · rw [same]
      exact inv
  | delete who =>
    rcases delete_cases tables w who with ⟨_, _, holds⟩ | same
    · exact inv.delete holds (inv.ids.step _)
    · rw [same]
      exact inv
  | stop who => exact inv.stop who

/-- No committed change is lost in a run in which every transaction that commits while a
batch is held has only ids above it. -/
theorem nothing_lost {w : World} (start : Initial w) {acts : List Act}
    (timely : Runs.Along (Drainers.step tables) Timely acts w) :
    NothingLost tables (run tables acts w) :=
  (timely.invariant (fun _ _ inv cond => Inv.step inv cond) start.inv).kept

/-- A database that has only just been set up. -/
def World.blank : World where
  lastId := 0
  pending := fun _ => []
  log := .empty
  drain := fun _ => none
  sent := []
  committed := []

theorem World.blank_initial : Initial World.blank where
  pending _ := rfl
  drain _ := rfl
  sent := rfl
  committed := rfl
  ids r hr := by cases hr

def episodeTables : List TrackedTable := [{ name := "episodes", pk := "id" }]

/-- What the trigger captures when a row is inserted. -/
def insertedRow (key : UInt64) : LogRow where
  tableName := some "public.episodes"
  op := some "insert"
  row := some (.ofJson (.object [("id", .number (.posInt key))]))

theorem nothing_lost_episode :
    NothingLost episodeTables (run episodeTables
      [.insert 1 (insertedRow 1), .commit 1, .select .poller (some "1"), .insert 2 (insertedRow 2),
        .commit 2, .forward .poller, .delete .poller] World.blank) := by
  refine nothing_lost World.blank_initial ?_
  simp only [Runs.Along, Timely, true_and, and_true]
  refine ⟨?_, ?_⟩
  · intro who b hb
    cases hb
  · intro who b hb r hr
    cases who with
    | poller =>
      cases hb
      cases List.mem_singleton.mp hr
      decide
    | fence => cases hb

/-- No drain reads a batch while another one is held. -/
def Alone (w : World) : Act → Prop
  | .select _ _ => ∀ who, w.drain who = none
  | _ => True

/-- The first transaction commits after the second one's row was read, and its row is
deleted with it. -/
theorem not_always_kept :
    ¬ ∀ (tables : List TrackedTable) (w : World) (acts : List Act), Initial w →
      Runs.Along (Drainers.step tables) Alone acts w → NothingLost tables (run tables acts w) := by
  intro always
  let acts : List Act := [.insert 1 (insertedRow 1), .insert 2 (insertedRow 2), .commit 2,
    .select .poller (some "1"), .commit 1, .forward .poller, .delete .poller]
  have alone : Runs.Along (Drainers.step episodeTables) Alone acts World.blank := by
    simp only [acts, Runs.Along, Alone, true_and, and_true]
    intro who
    rfl
  have kept := always episodeTables World.blank acts World.blank_initial alone (1, insertedRow 1)
    (by decide) (by decide)
  have empty : (run episodeTables acts World.blank).log.entries = [] := by decide
  have ids : (run episodeTables acts World.blank).sent.map Prod.fst = [2] := by decide
  rcases kept with present | ⟨ev, _, _, sent⟩
  · rw [empty] at present
    cases present
  · have one := List.mem_map_of_mem (f := Prod.fst) sent
    rw [ids] at one
    simp at one

end Drainers

end GitAgentic
