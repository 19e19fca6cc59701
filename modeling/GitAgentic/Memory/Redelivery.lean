import GitAgentic.Memory.LostChange

/-! Two drains that hold the same rows. A batch may be sent after the other drain has
deleted its rows and sent newer ones, so the last event of a key need not be its newest. -/
namespace GitAgentic

namespace Drainers

variable (tables : List TrackedTable)

def deliveredKey (ev : ChangeEvent) : Option (String × Value) := do
  let pk ← (BTreeMap.ofList (tables.map (fun t => (t.name, t.pk)))).get? ev.table
  let key ← ev.row.get? pk
  some (ev.table, key)

def deliveries (w : World) (key : String × Value) : List (Nat × ChangeEvent) :=
  w.sent.filter (fun d => deliveredKey tables d.2 = some key)

def Settled (w : World) (key : String × Value) : Prop :=
  ∀ last ∈ (deliveries tables w key).getLast?, ∀ d ∈ deliveries tables w key, d.1 ≤ last.1

/-- For every key, the last event sent has the largest id of those sent. -/
def LastWins (w : World) : Prop := ∀ key, Settled tables w key

/-- A row that is forwarded as an event of the key. -/
def Delivers (key : String × Value) (r : Nat × LogRow) : Prop :=
  ∃ schemaVersion ev, Triggers.forwarded tables schemaVersion r.2 = some ev ∧
    deliveredKey tables ev = some key

/-- The rows of one key become visible in the order of their ids. -/
def Ordered (w : World) : Act → Prop
  | .commit tx => ∀ r ∈ w.pending tx, ∀ q ∈ w.committed, ∀ key,
      Delivers tables key r → Delivers tables key q → q.1 < r.1
  | _ => True

/-- A drain reads only while the other holds no batch, and a key is committed in order. -/
def InTurn (w : World) (act : Act) : Prop := Alone w act ∧ Ordered tables w act

/-- No drain holds a batch, and the rows sent have been deleted. -/
structure Finished (w : World) : Prop where
  idle : ∀ who, w.drain who = none
  deleted : ∀ r ∈ w.log.entries, r.1 ∉ w.sent.map Prod.fst

/-- A batch under way is the head of the log, and of the rows it has sent none is newer
than the last event of its key. -/
structure Underway (w : World) (b : Batch) : Prop where
  sorted : SortedKeys b.rows
  present : ∀ r ∈ b.rows, r ∈ w.log.entries
  covered : ∀ r ∈ w.log.entries, r.1 ≤ Triggers.maxId b.rows → r.1 ∈ w.sent.map Prod.fst → r ∈ b.rows
  parts : ∃ done, b.rows = done ++ b.rest ∧ ∀ key, ∀ q ∈ done, Delivers tables key q →
    ∀ last ∈ (deliveries tables w key).getLast?, q.1 ≤ last.1

/-- What keeps the last event of a key its newest. An event newer than the last one of
its key has its row still in the log, and so has one that is newer than a row of its key. -/
structure Orderly (w : World) : Prop where
  ids : Ids w
  one : ∀ who who' b b', w.drain who = some b → w.drain who' = some b' → who = who'
  batch : ∀ who b, w.drain who = some b → Underway tables w b
  origin : ∀ d ∈ w.sent, ∃ q ∈ w.committed, q.1 = d.1 ∧
    ∀ key, deliveredKey tables d.2 = some key → Delivers tables key q
  waiting : ∀ key, ∀ d ∈ deliveries tables w key, ∀ r ∈ w.log.entries, Delivers tables key r →
    r.1 ≤ d.1 → ∃ q ∈ w.log.entries, q.1 = d.1
  newest : ∀ key, ∀ d ∈ deliveries tables w key,
    (∀ last ∈ (deliveries tables w key).getLast?, d.1 ≤ last.1) ∨ ∃ q ∈ w.log.entries, q.1 = d.1

variable {tables}

theorem Delivers.forwarded {key : String × Value} {r : Nat × LogRow} (h : Delivers tables key r)
    (schemaVersion : String) :
    ∃ ev, Triggers.forwarded tables schemaVersion r.2 = some ev ∧ deliveredKey tables ev = some key := by
  obtain ⟨_, ev, found, own⟩ := h
  obtain ⟨tableName, shape, resolved, _⟩ := Triggers.forwarded_eq_some_iff.mp found
  exact ⟨{ ev with schemaVersion }, Triggers.forwarded_eq_some_iff.mpr ⟨tableName, shape, resolved, rfl⟩, own⟩

section

variable {w w' : World} {schemaVersion : String} {r : Nat × LogRow} {key : String × Value}

theorem deliveries_grown (sent : w'.sent = w.sent ++ (eventOf tables schemaVersion r).toList)
    (about : Delivers tables key r) :
    ∃ ev, deliveries tables w' key = deliveries tables w key ++ [(r.1, ev)] := by
  obtain ⟨ev, found, own⟩ := about.forwarded schemaVersion
  exact ⟨ev, by simp [deliveries, sent, eventOf, found, own]⟩

theorem deliveries_same (sent : w'.sent = w.sent ++ (eventOf tables schemaVersion r).toList)
    (other : ¬ Delivers tables key r) : deliveries tables w' key = deliveries tables w key := by
  cases found : Triggers.forwarded tables schemaVersion r.2 with
  | none => simp [deliveries, sent, eventOf, found]
  | some ev =>
    have apart : deliveredKey tables ev ≠ some key := fun own => other ⟨schemaVersion, ev, found, own⟩
    simp [deliveries, sent, eventOf, found, apart]

end

theorem Initial.orderly {w : World} (h : Initial w) : Orderly tables w where
  ids := h.idsKept
  one who who' b b' hb := by simp [h.drain who] at hb
  batch who b hb := by simp [h.drain who] at hb
  origin d hd := by simp [h.sent] at hd
  waiting key d hd := by simp [deliveries, h.sent] at hd
  newest key d hd := by simp [deliveries, h.sent] at hd

theorem Orderly.unsent {w : World} (inv : Orderly tables w) {tx : Nat} {r : Nat × LogRow}
    (hr : r ∈ w.pending tx) : r.1 ∉ w.sent.map Prod.fst := by
  intro sent
  obtain ⟨d, hd, same⟩ := List.mem_map.mp sent
  obtain ⟨q, hq, own, _⟩ := inv.origin d hd
  exact inv.ids.fresh tx r hr q hq (own.trans same)

theorem Orderly.commit {w : World} (inv : Orderly tables w) {tx : Nat}
    (ordered : Ordered tables w (.commit tx)) : Orderly tables (step tables w (.commit tx)) where
  ids := inv.ids.step _
  one := inv.one
  batch := by
    intro who b hb
    obtain ⟨sorted, present, covered, parts⟩ := inv.batch who b hb
    refine ⟨sorted, fun r hr => (inv.ids.mem_commit tx).mpr (Or.inl (present r hr)), ?_, parts⟩
    intro r hr below sent
    rcases (inv.ids.mem_commit tx).mp hr with hr | hr
    · exact covered r hr below sent
    · exact absurd sent (inv.unsent hr)
  origin d hd := by
    obtain ⟨q, hq, same, about⟩ := inv.origin d hd
    exact ⟨q, List.mem_append_left _ hq, same, about⟩
  waiting := by
    intro key d hd r hr about below
    rcases (inv.ids.mem_commit tx).mp hr with hr | hr
    · obtain ⟨q, hq, same⟩ := inv.waiting key d hd r hr about below
      exact ⟨q, (inv.ids.mem_commit tx).mpr (Or.inl hq), same⟩
    · obtain ⟨hd, own⟩ := List.mem_filter.mp hd
      obtain ⟨q, hq, same, sentAs⟩ := inv.origin d hd
      have above := ordered r hr q hq key about (sentAs key (of_decide_eq_true own))
      omega
  newest key d hd := by
    refine (inv.newest key d hd).imp id ?_
    rintro ⟨q, hq, same⟩
    exact ⟨q, (inv.ids.mem_commit tx).mpr (Or.inl hq), same⟩

theorem Orderly.select {w : World} (inv : Orderly tables w) {who : Who} {liveVersion : Option String}
    (alone : ∀ who, w.drain who = none) :
    Orderly tables (step tables w (.select who liveVersion)) := by
  have ids : Ids (step tables w (.select who liveVersion)) := inv.ids.step _
  simp only [step, alone who] at ids ⊢
  have mine : ∀ who' b, Function.update w.drain who (startBatch tables who liveVersion w.log) who' =
      some b → who' = who ∧ startBatch tables who liveVersion w.log = some b := by
    intro who' b hb
    rcases drain_update_cases hb with started | ⟨_, hb⟩
    · exact started
    · rw [alone who'] at hb
      cases hb
  refine ⟨ids, ?_, ?_, inv.origin, inv.waiting, inv.newest⟩
  · intro who' who'' b b' hb hb'
    exact (mine who' b hb).1.trans (mine who'' b' hb').1.symm
  · intro who' b hb
    have started := (mine who' b hb).2
    obtain ⟨rows, rest⟩ := startBatch_cases started
    have nonempty : Triggers.select w.log ≠ [] := by
      intro empty
      simp [startBatch, empty] at started
    refine ⟨?_, ?_, ?_, [], rows.trans rest.symm, ?_⟩
    · rw [rows]
      exact w.log.sorted.sublist (List.take_sublist _ _)
    · intro r hr
      rw [rows] at hr
      exact List.mem_of_mem_take hr
    · intro r hr below _
      rw [rows] at below ⊢
      exact le_maxId_of_select hr below nonempty
    · rintro key q ⟨⟩

/-- The next row of a batch is sent. What was sent before and is newer has its row still
in the log, since this row is in it. -/
theorem Orderly.forward {w : World} (inv : Orderly tables w) {who : Who} {schemaVersion : String}
    {rows rest : List (Nat × LogRow)} {r : Nat × LogRow}
    (holds : w.drain who = some ⟨schemaVersion, rows, r :: rest⟩) :
    Orderly tables (step tables w (.forward who)) := by
  have ids : Ids (step tables w (.forward who)) := inv.ids.step _
  have here := inv.batch who _ holds
  obtain ⟨done, parts, sentLast⟩ := here.parts
  have parts : rows = done ++ r :: rest := parts
  have present : r ∈ w.log.entries := here.present r (by simp [parts])
  have earlier : ∀ q ∈ done, q.1 ≤ r.1 := by
    intro q hq
    have sorted := here.sorted
    rw [parts] at sorted
    exact ((List.pairwise_append.mp sorted).2.2 q hq r List.mem_cons_self).le
  obtain ⟨w', next⟩ : ∃ w', step tables w (.forward who) = w' := ⟨_, rfl⟩
  have sent : w'.sent = w.sent ++ (eventOf tables schemaVersion r).toList := by
    simp only [← next, step, holds]
  have drain : w'.drain = Function.update w.drain who (some ⟨schemaVersion, rows, rest⟩) := by
    simp only [← next, step, holds]
  have log : w'.log = w.log := by simp only [← next, step, holds]
  have committed : w'.committed = w.committed := by simp only [← next, step, holds]
  rw [next] at ids ⊢
  have mine : ∀ who' b, w'.drain who' = some b → who' = who ∧ b = ⟨schemaVersion, rows, rest⟩ := by
    intro who' b hb
    rw [drain] at hb
    rcases drain_update_cases hb with ⟨own, same⟩ | ⟨other, hb⟩
    · exact ⟨own, (Option.some.inj same).symm⟩
    · exact absurd (inv.one who' who b _ hb holds) other
  refine ⟨ids, ?_, ?_, ?_, ?_, ?_⟩
  · intro who' who'' b b' hb hb'
    exact (mine who' b hb).1.trans (mine who'' b' hb').1.symm
  · intro who' b hb
    obtain ⟨_, rfl⟩ := mine who' b hb
    refine ⟨here.sorted, fun q hq => log ▸ here.present q hq, ?_, done ++ [r], by simp [parts], ?_⟩
    · intro q hq below handed
      rw [log] at hq
      rw [sent, List.map_append] at handed
      rcases List.mem_append.mp handed with handed | now
      · exact here.covered q hq below handed
      · have same : r.1 = q.1 := by
          obtain ⟨d, hd, same⟩ := List.mem_map.mp now
          obtain ⟨ev, _, rfl⟩ := Option.map_eq_some_iff.mp (Option.mem_toList.mp hd)
          exact same
        have one := inv.ids.single q (inv.ids.logCommitted q hq) r (inv.ids.logCommitted r present) same
        rw [← one]
        simp [parts]
    · intro key q hq about last hlast
      by_cases own : Delivers tables key r
      · obtain ⟨ev, grown⟩ := deliveries_grown sent own
        rw [grown, List.getLast?_concat] at hlast
        cases hlast
        rcases List.mem_append.mp hq with hq | hq
        · exact earlier q hq
        · rw [List.mem_singleton.mp hq]
      · rw [deliveries_same sent own] at hlast
        rcases List.mem_append.mp hq with hq | hq
        · exact sentLast key q hq about last hlast
        · rw [List.mem_singleton.mp hq] at about
          exact absurd about own
  · intro d hd
    rw [sent] at hd
    rw [committed]
    rcases List.mem_append.mp hd with hd | hd
    · exact inv.origin d hd
    · obtain ⟨ev, found, rfl⟩ := Option.map_eq_some_iff.mp (Option.mem_toList.mp hd)
      exact ⟨r, inv.ids.logCommitted r present, rfl, fun key own => ⟨schemaVersion, ev, found, own⟩⟩
  · intro key d hd q hq about below
    rw [log] at hq ⊢
    by_cases own : Delivers tables key r
    · obtain ⟨ev, grown⟩ := deliveries_grown sent own
      rw [grown] at hd
      rcases List.mem_append.mp hd with hd | hd
      · exact inv.waiting key d hd q hq about below
      · exact ⟨r, present, by rw [List.mem_singleton.mp hd]⟩
    · rw [deliveries_same sent own] at hd
      exact inv.waiting key d hd q hq about below
  · intro key d hd
    rw [log]
    by_cases own : Delivers tables key r
    · obtain ⟨ev, grown⟩ := deliveries_grown sent own
      rw [grown, List.getLast?_concat]
      rw [grown] at hd
      rcases List.mem_append.mp hd with hd | hd
      · rcases le_or_gt d.1 r.1 with older | newer
        · refine Or.inl ?_
          rintro last ⟨⟩
          exact older
        · exact Or.inr (inv.waiting key d hd r present own newer.le)
      · refine Or.inl ?_
        rintro last ⟨⟩
        rw [List.mem_singleton.mp hd]
    · rw [deliveries_same sent own] at hd ⊢
      exact inv.newest key d hd

theorem Orderly.delete {w : World} (inv : Orderly tables w) {who : Who} {schemaVersion : String}
    {rows : List (Nat × LogRow)} (holds : w.drain who = some ⟨schemaVersion, rows, []⟩) :
    Orderly tables (step tables w (.delete who)) := by
  have ids : Ids (step tables w (.delete who)) := inv.ids.step _
  have here := inv.batch who _ holds
  obtain ⟨done, parts, sentLast⟩ := here.parts
  obtain rfl : rows = done := by simpa using parts
  simp only [step, holds] at ids ⊢
  have idle : ∀ who' b, Function.update w.drain who none who' ≠ some b := by
    intro who' b hb
    rcases drain_update_cases hb with ⟨_, same⟩ | ⟨other, hb⟩
    · cases same
    · exact other (inv.one who' who b _ hb holds)
  have stays : ∀ q ∈ w.log.entries, Triggers.maxId rows < q.1 →
      q ∈ (Triggers.deleteUpTo (Triggers.maxId rows) w.log).entries := fun q hq above =>
    List.mem_filter.mpr ⟨hq, by simpa using above⟩
  refine ⟨ids, ?_, ?_, inv.origin, ?_, ?_⟩
  · exact fun who' who'' b b' hb _ => absurd hb (idle who' b)
  · exact fun who' b hb => absurd hb (idle who' b)
  · intro key d hd r hr about below
    obtain ⟨hr, above⟩ := List.mem_filter.mp hr
    obtain ⟨q, hq, same⟩ := inv.waiting key d hd r hr about below
    refine ⟨q, stays q hq ?_, same⟩
    have above : Triggers.maxId rows < r.1 := by simpa using above
    omega
  · intro key d hd
    rcases inv.newest key d hd with last | ⟨q, hq, same⟩
    · exact Or.inl last
    · rcases le_or_gt q.1 (Triggers.maxId rows) with below | above
      · obtain ⟨hd, own⟩ := List.mem_filter.mp hd
        have handed : q.1 ∈ w.sent.map Prod.fst := List.mem_map.mpr ⟨d, hd, same.symm⟩
        obtain ⟨p, hp, sentAs, about⟩ := inv.origin d hd
        obtain rfl : q = p :=
          inv.ids.single p hp q (inv.ids.logCommitted q hq) (same.trans sentAs.symm)
        refine Or.inl ?_
        rw [← same]
        exact sentLast key q (here.covered q hq below handed) (about key (of_decide_eq_true own))
      · exact Or.inr ⟨q, stays q hq above, same⟩

theorem Orderly.stop {w : World} (inv : Orderly tables w) (who : Who) :
    Orderly tables (step tables w (.stop who)) := by
  have left : ∀ who' b, Function.update w.drain who none who' = some b → w.drain who' = some b := by
    intro who' b hb
    rcases drain_update_cases hb with ⟨_, same⟩ | ⟨_, hb⟩
    · cases same
    · exact hb
  refine ⟨inv.ids.step _, ?_, ?_, inv.origin, inv.waiting, inv.newest⟩
  · exact fun who' who'' b b' hb hb' => inv.one who' who'' b b' (left who' b hb) (left who'' b' hb')
  · intro who' b hb
    obtain ⟨sorted, present, covered, parts⟩ := inv.batch who' b (left who' b hb)
    exact ⟨sorted, present, covered, parts⟩

theorem Orderly.step {w : World} (inv : Orderly tables w) {act : Act}
    (inTurn : InTurn tables w act) : Orderly tables (step tables w act) := by
  obtain ⟨alone, ordered⟩ := inTurn
  cases act with
  | insert tx row =>
    refine ⟨inv.ids.step _, inv.one, ?_, inv.origin, inv.waiting, inv.newest⟩
    intro who b hb
    obtain ⟨sorted, present, covered, parts⟩ := inv.batch who b hb
    exact ⟨sorted, present, covered, parts⟩
  | commit tx => exact inv.commit ordered
  | rollback tx =>
    refine ⟨inv.ids.step _, inv.one, ?_, inv.origin, inv.waiting, inv.newest⟩
    intro who b hb
    obtain ⟨sorted, present, covered, parts⟩ := inv.batch who b hb
    exact ⟨sorted, present, covered, parts⟩
  | select who liveVersion => exact inv.select alone
  | forward who =>
    rcases forward_cases tables w who with ⟨_, _, _, _, holds⟩ | same
    · exact inv.forward holds
    · rw [same]
      exact inv
  | delete who =>
    rcases delete_cases tables w who with ⟨_, _, holds⟩ | same
    · exact inv.delete holds
    · rw [same]
      exact inv
  | stop who => exact inv.stop who

theorem orderly {w : World} (start : Initial w) {acts : List Act}
    (along : Runs.Along (Drainers.step tables) (InTurn tables) acts w) :
    Orderly tables (run tables acts w) :=
  along.invariant (fun _ _ inv inTurn => Orderly.step inv inTurn) start.orderly

/-- In a run in which a drain reads only while the other holds no batch, and the rows of a
key commit in the order of their ids, the last event of every key is its newest whenever
both drains have finished, however often they stopped midway before. -/
theorem last_wins {w : World} (start : Initial w) {acts : List Act}
    (along : Runs.Along (Drainers.step tables) (InTurn tables) acts w)
    (finished : Finished (run tables acts w)) : LastWins tables (run tables acts w) := by
  have inv := orderly start along
  intro key last hlast d hd
  rcases inv.newest key d hd with below | ⟨q, hq, same⟩
  · exact below last hlast
  · exact absurd (List.mem_map.mpr ⟨d, List.mem_of_mem_filter hd, same.symm⟩)
      (finished.deleted q hq)

/-- The first attempt on two rows of one key stops after the first of them; the fence sends
both. -/
theorem last_wins_episode :
    LastWins episodeTables (run episodeTables
      [.insert 1 (insertedRow 1), .commit 1, .insert 2 (insertedRow 1), .commit 2,
        .select .poller (some "1"), .forward .poller, .stop .poller, .select .fence (some "1"),
        .forward .fence, .forward .fence, .delete .fence] World.blank) := by
  refine last_wins World.blank_initial ?_ ⟨?_, ?_⟩
  · simp only [Runs.Along, InTurn, Alone, Ordered, true_and, and_true]
    refine ⟨?_, ?_, ?_, ?_⟩
    · rintro r _ q ⟨⟩
    · intro r hr q hq key _ _
      obtain rfl := List.mem_singleton.mp hr
      obtain rfl := List.mem_singleton.mp hq
      decide
    · intro who
      rfl
    · intro who
      cases who <;> rfl
  · intro who
    cases who <;> rfl
  · have empty : (run episodeTables
        [.insert 1 (insertedRow 1), .commit 1, .insert 2 (insertedRow 1), .commit 2,
          .select .poller (some "1"), .forward .poller, .stop .poller, .select .fence (some "1"),
          .forward .fence, .forward .fence, .delete .fence] World.blank).log.entries = [] := by decide
    rw [empty]
    rintro r ⟨⟩

def Unbroken (_ : World) : Act → Prop
  | .stop _ => False
  | _ => True

/-- A row of the log that was sent belongs to the batch under way. -/
def Swept (w : World) : Prop :=
  ∀ r ∈ w.log.entries, r.1 ∈ w.sent.map Prod.fst →
    ∃ who b done, w.drain who = some b ∧ b.rows = done ++ b.rest ∧ r ∈ done

theorem Swept.step {w : World} (swept : Swept w) (inv : Orderly tables w) {act : Act}
    (alone : Alone w act) (unbroken : Unbroken w act) : Swept (step tables w act) := by
  cases act with
  | insert tx row => exact swept
  | rollback tx => exact swept
  | stop who => exact absurd unbroken id
  | commit tx =>
    intro r hr sent
    rcases (inv.ids.mem_commit tx).mp hr with hr | hr
    · exact swept r hr sent
    · exact absurd sent (inv.unsent hr)
  | select who liveVersion =>
    intro r hr sent
    simp only [Drainers.step, alone who] at hr sent
    obtain ⟨who', b, _, hb, _⟩ := swept r hr sent
    rw [alone who'] at hb
    cases hb
  | forward who =>
    rcases forward_cases tables w who with ⟨schemaVersion, rows, r, rest, holds⟩ | same
    · simp only [Drainers.step, holds]
      intro q hq sent
      rw [List.map_append] at sent
      rcases List.mem_append.mp sent with sent | now
      · obtain ⟨who', b, done, hb, parts, mem⟩ := swept q hq sent
        obtain rfl := inv.one who' who b _ hb holds
        obtain rfl := Option.some.inj (hb.symm.trans holds)
        exact ⟨who', _, done ++ [r], Function.update_self _ _ _, by simpa using parts,
          List.mem_append_left _ mem⟩
      · obtain ⟨done, parts, _⟩ := (inv.batch who _ holds).parts
        have parts : rows = done ++ r :: rest := parts
        have present : r ∈ w.log.entries := (inv.batch who _ holds).present r (by simp [parts])
        obtain ⟨d, hd, same⟩ := List.mem_map.mp now
        obtain ⟨ev, _, rfl⟩ := Option.map_eq_some_iff.mp (Option.mem_toList.mp hd)
        have one : q = r := inv.ids.single r (inv.ids.logCommitted r present) q
          (inv.ids.logCommitted q hq) same.symm
        exact ⟨who, _, done ++ [r], Function.update_self _ _ _, by simp [parts], by simp [one]⟩
    · rw [same]
      exact swept
  | delete who =>
    rcases delete_cases tables w who with ⟨schemaVersion, rows, holds⟩ | same
    · simp only [Drainers.step, holds]
      intro r hr sent
      obtain ⟨hr, above⟩ := List.mem_filter.mp hr
      obtain ⟨who', b, done, hb, parts, mem⟩ := swept r hr sent
      obtain rfl := inv.one who' who b _ hb holds
      obtain rfl := Option.some.inj (hb.symm.trans holds)
      have read : r ∈ rows := by
        have parts : rows = done ++ [] := parts
        rw [parts, List.append_nil]
        exact mem
      exact absurd (Triggers.le_maxId read) (by simpa using above)
    · rw [same]
      exact swept

theorem finished_of_idle {w : World} (start : Initial w) {acts : List Act}
    (along : Runs.Along (Drainers.step tables) (fun w act => InTurn tables w act ∧ Unbroken w act) acts w)
    (idle : ∀ who, (run tables acts w).drain who = none) : Finished (run tables acts w) := by
  have kept : Orderly tables (run tables acts w) ∧ Swept (run tables acts w) := by
    refine @Runs.Along.invariant _ _ _ _ (fun w => Orderly tables w ∧ Swept w) ?_ _ _ along
      ⟨start.orderly, ?_⟩
    · rintro w act ⟨inv, swept⟩ ⟨inTurn, unbroken⟩
      exact ⟨inv.step inTurn, swept.step inv inTurn.1 unbroken⟩
    · intro r _ sent
      rw [start.sent] at sent
      cases sent
  refine ⟨idle, ?_⟩
  intro r hr sent
  obtain ⟨who, b, _, hb, _⟩ := kept.2 r hr sent
  rw [idle who] at hb
  cases hb

def repeatedRows (n : Nat) : List (Nat × LogRow) := (List.range n).map (fun i => (i + 1, insertedRow 1))

def repeatedLog (n : Nat) : ChangeLog where
  entries := repeatedRows n
  sorted := List.pairwise_map.mpr (List.pairwise_lt_range.imp (fun lt => Nat.succ_lt_succ lt))

def repeated (n : Nat) : World :=
  { World.blank with lastId := n, log := repeatedLog n, committed := repeatedRows n }

theorem repeated_initial (n : Nat) : Initial (repeated n) where
  pending _ := rfl
  drain _ := rfl
  sent := rfl
  committed := rfl
  ids r hr := by
    obtain ⟨i, hi, rfl⟩ := List.mem_map.mp hr
    exact List.mem_range.mp hi

def repeatedEvent : ChangeEvent where
  table := "episodes"
  row := .ofJson (.object [("id", .number (.posInt 1))])
  op := .insert
  schemaVersion := "1"

theorem repeated_events (is : List Nat) :
    (is.map (fun i => (i + 1, insertedRow 1))).filterMap (eventOf episodeTables "1") =
      is.map (fun i => (i + 1, repeatedEvent)) := by
  have found : Triggers.forwarded episodeTables "1" (insertedRow 1) = some repeatedEvent := by decide
  rw [List.filterMap_map, ← List.filterMap_eq_map]
  exact List.filterMap_congr (fun i _ => by simp [eventOf, found])

theorem step_select {w : World} {who : Who} (idle : w.drain who = none) (schemaVersion : String)
    (nonempty : Triggers.select w.log ≠ [])
    (valid : ∀ r ∈ Triggers.select w.log, r.2 = insertedRow 1) :
    step episodeTables w (.select who (some schemaVersion)) =
      { w with
        drain := Function.update w.drain who
          (some ⟨schemaVersion, Triggers.select w.log, Triggers.select w.log⟩) } := by
  have passes : ¬ (mode who = .strict ∧
      (Triggers.prevalidateAll episodeTables (Triggers.select w.log)).toOption = none) := by
    rintro ⟨_, fails⟩
    rw [(Triggers.prevalidateAll_ok_iff episodeTables _).mpr (fun r hr => by
      rw [valid r hr]
      decide)] at fails
    cases fails
  simp only [step, idle, startBatch, if_neg nonempty, if_neg passes]

/-- The poller and the fence read the same batch; the fence sends all rows of the log
before the poller sends its own. -/
def overtaken (n : Nat) : List Act :=
  [Act.select .poller (some "1"), Act.select .fence (some "1")] ++
    ((List.replicate n (Act.forward .fence) ++ [Act.delete .fence]) ++
      ([Act.select .fence (some "1")] ++
        ((List.replicate 1 (Act.forward .fence) ++ [Act.delete .fence]) ++
          (List.replicate n (Act.forward .poller) ++ [Act.delete .poller]))))

theorem repeatedRows_valid (n : Nat) : ∀ r ∈ repeatedRows n, r.2 = insertedRow 1 := by
  intro r hr
  obtain ⟨i, _, rfl⟩ := List.mem_map.mp hr
  rfl

theorem repeatedRows_succ (n : Nat) :
    repeatedRows (n + 1) = repeatedRows n ++ [(n + 1, insertedRow 1)] := by
  simp [repeatedRows, List.range_succ]

theorem repeatedRows_length (n : Nat) : (repeatedRows n).length = n := by simp [repeatedRows]

theorem select_repeated {n : Nat} (size : Triggers.pollBatchSize = n) :
    Triggers.select (repeatedLog (n + 1)) = repeatedRows n := by
  rw [Triggers.select, size]
  exact (congrArg (List.take n) (repeatedRows_succ n)).trans
    (List.take_left' (repeatedRows_length n))

theorem deleteUpTo_repeated {n : Nat} (size : Triggers.pollBatchSize = n) (positive : 0 < n) :
    (Triggers.deleteUpTo (Triggers.maxId (repeatedRows n)) (repeatedLog (n + 1))).entries =
      [(n + 1, insertedRow 1)] := by
  have nonempty : Triggers.select (repeatedLog (n + 1)) ≠ [] := by
    rw [select_repeated size]
    exact List.ne_nil_of_length_pos (by rw [repeatedRows_length]; exact positive)
  rw [← select_repeated size, Triggers.deleteUpTo_select _ nonempty, size]
  exact (congrArg (List.drop n) (repeatedRows_succ n)).trans
    (List.drop_left' (repeatedRows_length n))

theorem run_finish_repeated (who : Who) {w : World} {rows : List (Nat × LogRow)} (is : List Nat)
    (holds : w.drain who = some ⟨"1", rows, is.map (fun i => (i + 1, insertedRow 1))⟩) :
    run episodeTables (List.replicate is.length (.forward who) ++ [.delete who]) w =
      { w with
        log := Triggers.deleteUpTo (Triggers.maxId rows) w.log
        sent := w.sent ++ is.map (fun i => (i + 1, repeatedEvent))
        drain := Function.update w.drain who none } := by
  have finish := run_finish episodeTables who holds
  rw [List.length_map, repeated_events] at finish
  exact finish

theorem overtaken_run {n : Nat} (size : Triggers.pollBatchSize = n) (positive : 0 < n) :
    (run episodeTables (overtaken n) (repeated (n + 1))).sent =
        (List.range (n + 1)).map (fun i => (i + 1, repeatedEvent)) ++
          (List.range n).map (fun i => (i + 1, repeatedEvent)) ∧
      Finished (run episodeTables (overtaken n) (repeated (n + 1))) := by
  have read := select_repeated size
  have left := deleteUpTo_repeated size positive
  have nonempty : repeatedRows n ≠ [] :=
    List.ne_nil_of_length_pos (by rw [repeatedRows_length]; exact positive)
  have last : Triggers.select
      (Triggers.deleteUpTo (Triggers.maxId (repeatedRows n)) (repeatedLog (n + 1))) =
      [(n + 1, insertedRow 1)] := by
    rw [Triggers.select, left, size]
    exact List.take_of_length_le (Nat.succ_le_of_lt positive)
  let batch : Batch := ⟨"1", repeatedRows n, repeatedRows n⟩
  let poller : World :=
    { repeated (n + 1) with drain := Function.update (fun _ => none) .poller (some batch) }
  let both : World :=
    { repeated (n + 1) with
      drain := Function.update (Function.update (fun _ => none) .poller (some batch)) .fence
        (some batch) }
  have selected : run episodeTables [.select .poller (some "1"), .select .fence (some "1")]
      (repeated (n + 1)) = both := by
    have first : step episodeTables (repeated (n + 1)) (.select .poller (some "1")) = poller := by
      refine (step_select rfl "1" (by rw [repeated, read]; exact nonempty)
        (by rw [repeated, read]; exact repeatedRows_valid n)).trans ?_
      simp only [repeated, read]
      rfl
    have second : step episodeTables poller (.select .fence (some "1")) = both := by
      refine (step_select rfl "1" (by simp only [poller, repeated, read]; exact nonempty)
        (by simp only [poller, repeated, read]; exact repeatedRows_valid n)).trans ?_
      simp only [poller, repeated, read]
      rfl
    rw [run, Runs.run, List.foldl_cons, List.foldl_cons, List.foldl_nil, first, second]
  have fenced : run episodeTables (List.replicate n (.forward .fence) ++ [.delete .fence]) both =
      { poller with
        log := Triggers.deleteUpTo (Triggers.maxId (repeatedRows n)) (repeatedLog (n + 1))
        sent := (List.range n).map (fun i => (i + 1, repeatedEvent)) } := by
    have holds : both.drain .fence = some batch := by simp [both]
    have finish := run_finish_repeated .fence (List.range n) holds
    rw [List.length_range] at finish
    refine finish.trans ?_
    simp [both, poller, repeated, World.blank]
  let again : World :=
    { poller with
      log := Triggers.deleteUpTo (Triggers.maxId (repeatedRows n)) (repeatedLog (n + 1))
      sent := (List.range n).map (fun i => (i + 1, repeatedEvent))
      drain := Function.update poller.drain .fence
        (some ⟨"1", [(n + 1, insertedRow 1)], [(n + 1, insertedRow 1)]⟩) }
  have reselected : run episodeTables [.select .fence (some "1")]
      (run episodeTables (List.replicate n (.forward .fence) ++ [.delete .fence]) both) = again := by
    rw [fenced, run, Runs.run, List.foldl_cons, List.foldl_nil]
    refine (step_select (by simp [poller]) "1" (by rw [last]; exact List.cons_ne_nil _ _)
      (by rw [last]; simp)).trans ?_
    rw [last]
  have emptied : run episodeTables (List.replicate 1 (.forward .fence) ++ [.delete .fence]) again =
      { poller with
        log := Triggers.deleteUpTo (n + 1) again.log
        sent := (List.range (n + 1)).map (fun i => (i + 1, repeatedEvent)) } := by
    have holds : again.drain .fence =
        some ⟨"1", [(n + 1, insertedRow 1)], [n].map (fun i => (i + 1, insertedRow 1))⟩ := by
      simp [again]
    refine (run_finish_repeated .fence [n] holds).trans ?_
    simp [again, poller, repeated, World.blank, List.range_succ, Triggers.maxId]
  have held : (run episodeTables (List.replicate 1 (.forward .fence) ++ [.delete .fence])
      again).drain .poller = some batch := by
    rw [emptied]
    simp [poller]
  have finished := run_finish_repeated .poller (List.range n) held
  rw [List.length_range, emptied] at finished
  rw [overtaken, run_append, selected, run_append, run_append, reselected, run_append, emptied, finished]
  have cleared : ∀ log : ChangeLog, log.entries = [(n + 1, insertedRow 1)] →
      (Triggers.deleteUpTo (n + 1) log).entries = [] := by
    intro log held
    simp [Triggers.deleteUpTo, held]
  refine ⟨rfl, fun who => ?_, ?_⟩
  · cases who <;> simp [poller]
  · intro r hr
    have gone := List.mem_of_mem_filter hr
    rw [cleared _ left] at gone
    cases gone

/-- Rows of one key can leave with the oldest last: the fence does not take the lock that
the poller holds. -/
theorem not_always_last_wins :
    ¬ ∀ (tables : List TrackedTable) (w : World) (acts : List Act), Initial w →
      Finished (run tables acts w) → LastWins tables (run tables acts w) := by
  intro always
  have positive : 0 < Triggers.pollBatchSize := by decide
  generalize size : Triggers.pollBatchSize = n at positive
  obtain ⟨sent, finished⟩ := overtaken_run size positive
  have wins := always episodeTables (repeated (n + 1)) (overtaken n) (repeated_initial _) finished
  have about : deliveredKey episodeTables repeatedEvent =
      some ("episodes", .ofJson (.number (.posInt 1))) := by decide
  have all : deliveries episodeTables (run episodeTables (overtaken n) (repeated (n + 1)))
      ("episodes", .ofJson (.number (.posInt 1))) =
      (List.range (n + 1)).map (fun i => (i + 1, repeatedEvent)) ++
        (List.range n).map (fun i => (i + 1, repeatedEvent)) := by
    rw [deliveries, sent, List.filter_eq_self]
    intro d hd
    rcases List.mem_append.mp hd with hd | hd <;> obtain ⟨i, _, rfl⟩ := List.mem_map.mp hd <;>
      simp [about]
  have last : (n, repeatedEvent) ∈ (deliveries episodeTables
      (run episodeTables (overtaken n) (repeated (n + 1)))
      ("episodes", .ofJson (.number (.posInt 1)))).getLast? := by
    obtain ⟨m, rfl⟩ : ∃ m, n = m + 1 := ⟨n - 1, by omega⟩
    rw [all, List.range_succ (n := m), List.map_append, ← List.append_assoc]
    simp
  have newest : (n + 1, repeatedEvent) ∈ deliveries episodeTables
      (run episodeTables (overtaken n) (repeated (n + 1))) ("episodes", .ofJson (.number (.posInt 1))) := by
    rw [all]
    exact List.mem_append_left _ (List.mem_map.mpr ⟨n, by simp, rfl⟩)
  have below := wins _ _ last _ newest
  simp only at below
  omega

end Drainers

end GitAgentic
