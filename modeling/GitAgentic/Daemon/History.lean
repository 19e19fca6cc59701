import GitAgentic.Daemon.Serving
import GitAgentic.Daemon.Undisturbed

/-! The commits and rollback records of requests served at once: on every branch a single
chain of parents, in the order in which the requests had the lock. -/
namespace GitAgentic

namespace Daemon

variable {Hash M : Type}

/-- A commit that the request `writer` has put on a branch. -/
structure Record (Hash : Type) where
  writer : ℕ
  branch : String
  commit : Commit Hash

section

variable (P : Platform Hash)

def Record.hash (r : Record Hash) : Hash := (Object.commit r.commit).hash P

def onBranch (branch : String) (records : List (Record Hash)) : List (Record Hash) :=
  records.filter (fun r => r.branch = branch)

/-- Where the records leave the branch. -/
def tip (records : List (Record Hash)) (branch : String) : Option Hash :=
  (onBranch branch records).getLast?.map (Record.hash P)

/-- Every record was made on top of the one before it on its branch. -/
def Linked (records : List (Record Hash)) : Prop :=
  ∀ before r after, records = before ++ r :: after → r.commit.parent = tip P before r.branch

/-- The reply tells the client of this record. -/
def Reply.names (r : Record Hash) : Reply → Prop
  | .commit out => out = { commitHash := P.toHex (r.hash P), branch := r.branch }
  | .rollback out => out.newHeadHash = some (P.toHex (r.hash P))
  | .diff | .commitQueueFull => False

end

def Reply.recorded : Reply → Bool
  | .commit _ => true
  | .rollback out => out.newHeadHash.isSome
  | .diff | .commitQueueFull => false

variable [DecidableEq Hash] {P : Platform Hash} {hmac : Hmac} {config : DaemonConfig Hash M}

omit [DecidableEq Hash] in
theorem tip_concat (records : List (Record Hash)) (r : Record Hash) :
    tip P (records ++ [r]) = Function.update (tip P records) r.branch (some (r.hash P)) := by
  funext branch
  by_cases same : branch = r.branch
  · subst same
    rw [Function.update_self, tip, onBranch, List.filter_append]
    simp
  · rw [Function.update_of_ne same, tip, onBranch, List.filter_append]
    have other : ¬ r.branch = branch := fun h => same h.symm
    simp [tip, onBranch, other]

omit [DecidableEq Hash] in
theorem Linked.init {records : List (Record Hash)} {r : Record Hash} (h : Linked P (records ++ [r])) :
    Linked P records := by
  intro before r' after same
  exact h before r' (after ++ [r]) (by rw [same]; simp)

omit [DecidableEq Hash] in
theorem Linked.last {records : List (Record Hash)} {r : Record Hash} (h : Linked P (records ++ [r])) :
    r.commit.parent = tip P records r.branch := h records r [] rfl

omit [DecidableEq Hash] in
theorem Linked.concat {records : List (Record Hash)} {r : Record Hash} (h : Linked P records)
    (parent : r.commit.parent = tip P records r.branch) : Linked P (records ++ [r]) := by
  intro before r' after same
  rcases List.eq_nil_or_concat after with rfl | ⟨front, last, rfl⟩
  · obtain ⟨rfl, rest⟩ := List.append_inj' same rfl
    cases rest
    exact parent
  · rw [List.concat_eq_append, ← List.cons_append, ← List.append_assoc] at same
    exact h before r' front (List.append_inj' same rfl).1

theorem walkLog_records {files : Files} {records : List (Record Hash)} (linked : Linked P records)
    (stored : ∀ r ∈ records, Has P files (r.hash P) (.commit r.commit)) (branch : String) (limit : ℕ) :
    walkLog P files limit (tip P records branch) =
      .ok (((onBranch branch records).reverse.take limit).map (fun r => (r.hash P, r.commit))) := by
  induction records using List.reverseRecOn generalizing limit with
  | nil => cases limit <;> rfl
  | append_singleton records r ih =>
    have before := ih linked.init (fun r' mem => stored r' (List.mem_append_left _ mem))
    rw [tip_concat, onBranch, List.filter_append]
    by_cases same : branch = r.branch
    · subst same
      rw [Function.update_self]
      cases limit with
      | zero => rfl
      | succ limit =>
        have has : get P files (r.hash P) = .ok (.commit r.commit) :=
          stored r (List.mem_append_right _ List.mem_cons_self)
        have rest := before limit
        rw [← linked.last] at rest
        simp only [walkLog, has, bind, Except.bind, rest]
        simp [onBranch, pure, Except.pure]
    · rw [Function.update_of_ne same]
      have other : ¬ r.branch = branch := fun h => same h.symm
      rw [before limit]
      simp [onBranch, other]

theorem mem_walkLog {files : Files} {limit : ℕ} {start : Option Hash} {log : List (Hash × Commit Hash)}
    (h : walkLog P files limit start = .ok log) : ∀ e ∈ log, Has P files e.1 (.commit e.2) := by
  induction limit generalizing start log with
  | zero =>
    have nothing : log = [] := by simpa [walkLog] using h.symm
    subst nothing
    intro e he
    cases he
  | succ limit ih =>
    cases start with
    | none =>
      have nothing : log = [] := by simpa [walkLog] using h.symm
      subst nothing
      intro e he
      cases he
    | some hash =>
      rw [walkLog] at h
      cases found : get P files hash with
      | error e =>
        rw [found] at h
        cases h
      | ok object =>
        rw [found] at h
        cases object with
        | blob _ | tree _ => cases h
        | commit c =>
          cases walked : walkLog P files limit c.parent with
          | error e =>
            simp only [walked, bind, Except.bind] at h
            cases h
          | ok rest =>
            simp only [walked, bind, Except.bind, pure, Except.pure, Except.ok.injEq] at h
            subst h
            intro e he
            rcases List.mem_cons.mp he with rfl | he
            · exact found
            · exact ih walked e he

/-- The repository holds the records: their commits are stored, and the branches end where
the records leave them. -/
structure Ledger (P : Platform Hash) (d : Daemon M) (records : List (Record Hash)) : Prop where
  intact : Intact P (tip P records) d
  linked : Linked P records
  stored : ∀ r ∈ records, Has P d.repo.objects (r.hash P) (.commit r.commit)
  shaped : ∀ r ∈ records, r.commit.memorySnapshot.isSome = r.commit.schemaVersion.isSome

theorem Bare.ledger {d : Daemon M} (bare : Bare d) : Ledger P d [] where
  intact := bare.intact
  linked before r after same := by
    have length := congrArg List.length same
    simp at length
  stored r mem := by cases mem
  shaped r mem := by cases mem

theorem Ledger.untouched {d d' : Daemon M} {records : List (Record Hash)} (h : Ledger P d records)
    (same : Untouched P (tip P records) d d') : Ledger P d' records where
  intact := h.intact.untouched same
  linked := h.linked
  stored r mem := (h.stored r mem).mono same.kept.widens
  shaped := h.shaped

theorem Ledger.landed {d d' : Daemon M} {records : List (Record Hash)} (h : Ledger P d records)
    {branch : String} {inputs : CommitInputs Hash} {now : Int}
    (landed : Landed False P (tip P records) d d' branch inputs now)
    (shape : inputs.memorySnapshot.isSome = inputs.schemaVersion.isSome) (n : ℕ) :
    Ledger P d' (records ++ [⟨n, branch, inputs.commit P now⟩]) where
  intact := by
    rw [tip_concat]
    exact landed.intact h.intact
  linked := h.linked.concat (landed.current id)
  stored r mem := by
    rcases List.mem_append.mp mem with mem | mem
    · exact (h.stored r mem).mono landed.kept.widens
    · rw [List.mem_singleton.mp mem]
      exact landed.has
  shaped r mem := by
    rcases List.mem_append.mp mem with mem | mem
    · exact h.shaped r mem
    · rw [List.mem_singleton.mp mem]
      exact shape

/-- The hash is in the log of some branch. -/
def InHistory (P : Platform Hash) (d : Daemon M) (hash : Hash) : Prop :=
  ∃ branch start limit log,
    ((Refs.readBranch P branch).run d.repo.agentic).1 = .ok (some start) ∧
      walkLog P d.repo.objects limit (some start) = .ok log ∧ hash ∈ log.map Prod.fst

/-- A rollback's target, if its name stands for a commit, is one of the repository's own. -/
def Operation.Own (P : Platform Hash) (d : Daemon M) : Operation Hash → Prop
  | .rollback args _ _ _ =>
    ∀ hash, ((Rollback.resolveTarget P args.target).run d).1 = .ok hash → InHistory P d hash
  | .commit .. | .diff => True

theorem Ledger.record_of_inHistory {d : Daemon M} {records : List (Record Hash)}
    (h : Ledger P d records) {hash : Hash} (own : InHistory P d hash) :
    ∃ r ∈ records, r.hash P = hash := by
  obtain ⟨branch, start, limit, log, read, walked, listed⟩ := own
  have found : tip P records branch = some start := by
    have safe : (Refs.readBranch P branch).Safe False _ _ d.repo.agentic :=
      Refs.readBranch_safe h.intact.refs branch
    exact ((safe.run).2 _ read).1 start rfl
  rw [← found, walkLog_records h.linked h.stored] at walked
  cases walked
  rw [List.map_map] at listed
  obtain ⟨r, mem, rfl⟩ := List.mem_map.mp listed
  have inBranch := List.mem_reverse.mp (List.mem_of_mem_take mem)
  exact ⟨r, (List.mem_filter.mp inBranch).1, rfl⟩

def Mid (P : Platform Hash) (records : List (Record Hash)) (d d' : Daemon M) : Prop :=
  Untouched P (tip P records) d d' ∨ Commit.Made False P (tip P records) d d'

/-- What the answer says has been done, and nothing else. -/
def Ended (P : Platform Hash) (records : List (Record Hash)) (n : ℕ) (d : Daemon M)
    (answer : Except (DaemonError Hash) Reply) (d' : Daemon M) : Prop :=
  (Untouched P (tip P records) d d' ∧ ∀ reply, answer = .ok reply → reply.recorded = false) ∨
    ∃ reply branch inputs now, answer = .ok reply ∧
      Landed False P (tip P records) d d' branch inputs now ∧
      inputs.memorySnapshot.isSome = inputs.schemaVersion.isSome ∧
      reply.names P ⟨n, branch, inputs.commit P now⟩

theorem Operation.respond_safe {d : Daemon M} {records : List (Record Hash)} (h : Ledger P d records)
    {o : Operation Hash} (plain : o.Plain P) (own : o.Own P d) (n : ℕ) :
    (o.respond P hmac config).Safe False (Mid P records d) (Ended P records n d) d := by
  cases o with
  | commit input peerUid fingerprints now =>
    refine Program.Safe.bind ((Commit.execute_safe h.intact input peerUid fingerprints now
      (fun e he => kindOf_plain P (plain.1 e he)) (fun b hb => kindOf_plain P (plain.2.1 b hb))
      (fun b hb => kindOf_plain P (plain.2.2 b hb))).mono (fun _ h => h) ?_)
    rintro (e | out) d' done
    · exact Or.inl ⟨done, nofun⟩
    · obtain ⟨branch, inputs, now, landed, same, shape⟩ := done
      exact Or.inr ⟨_, branch, inputs, now, rfl, landed, shape, same⟩
  | rollback args peerUid nowSeconds now =>
    refine Program.Safe.bind ((Rollback.execute_safe h.intact args peerUid nowSeconds now).mono
      (fun _ h => Or.inl h) ?_)
    rintro (e | out) d' done
    · exact Or.inl ⟨done, nofun⟩
    by_cases dry : args.dryRun = true
    · rw [Rollback.Done, if_pos dry] at done
      refine Or.inl ⟨done.1, ?_⟩
      rintro _ ⟨⟩
      rw [Reply.recorded, done.2]
      rfl
    · rw [Rollback.Done, if_neg dry] at done
      obtain ⟨branch, inputs, now, targetHash, target, landed, head, stored, snapshot, version, named⟩ :=
        done
      obtain ⟨r, mem, rfl⟩ := h.record_of_inHistory (own targetHash (named id))
      have same := ((h.stored r mem).mono landed.kept.widens).symm.trans stored
      cases same
      refine Or.inr ⟨_, branch, inputs, now, rfl, landed, ?_, head⟩
      rw [snapshot, version]
      exact h.shaped r mem
  | diff =>
    refine Program.Safe.bind (((onDaemonRefs_still Refs.snapshot_still).safe d).mono ?_ ?_)
    · rintro _ rfl
      exact Or.inl (Untouched.refl h.intact)
    · rintro (e | refs) _ rfl
      · exact Or.inl ⟨Untouched.refl h.intact, nofun⟩
      · refine Or.inl ⟨Untouched.refl h.intact, ?_⟩
        rintro _ ⟨⟩
        rfl

def Task.past : Task Hash M → Bool
  | .received _ | .checked _ | .queued _ => false
  | _ => true

/-- Those who have had the lock before the present holder. -/
def Server.earlier (s : Server Hash M) : List ℕ :=
  match s.lock with
  | some (.request _) => s.acquired.dropLast
  | _ => s.acquired

/-- The records of all operations that have ended, next to the one that runs. -/
structure Kept (P : Platform Hash) (s : Server Hash M) (records : List (Record Hash)) : Prop where
  once : s.acquired.Nodup
  past : ∀ n ∈ s.acquired, ∃ t, s.tasks n = some t ∧ t.past = true
  last : ∀ n, s.lock = some (.request n) → s.acquired.getLast? = some n
  ordered : (records.map Record.writer).Sublist s.earlier
  answered : ∀ n reply, s.outcome n = some (.ok reply) → reply.recorded = true →
    ∃ r ∈ records, r.writer = n ∧ reply.names P r
  known : ∀ r ∈ records, ∃ reply, s.outcome r.writer = some (.ok reply) ∧ reply.names P r
  waits : (∀ n o p, s.tasks n ≠ some (.running o p)) → Ledger P s.daemon records
  works : ∀ n o p, s.tasks n = some (.running o p) →
    ∃ d, Ledger P d records ∧ p.Safe False (Mid P records d) (Ended P records n d) s.daemon

omit [DecidableEq Hash] in
theorem outcome_put {s s' : Server Hash M} {n : ℕ} {t : Task Hash M}
    (tasks : s'.tasks = Function.update s.tasks n (some t)) {m : ℕ} (other : m ≠ n) :
    s'.outcome m = s.outcome m := by
  unfold Server.outcome
  rw [tasks, Function.update_of_ne other]

theorem Initial.kept {s : Server Hash M} (start : Initial s) (bare : Bare s.daemon) : Kept P s [] where
  once := by rw [start.acquired]; exact List.nodup_nil
  past n mem := by rw [start.acquired] at mem; cases mem
  last n mine := by rw [start.lock] at mine; cases mine
  ordered := List.nil_sublist _
  answered n reply told := by
    rw [Server.outcome, start.tasks n] at told
    cases told
  known r mem := by cases mem
  waits _ := bare.ledger
  works n o p there := by rw [start.tasks n] at there; cases there

theorem Kept.same {s s' : Server Hash M} {records : List (Record Hash)} (h : Kept P s records)
    (tasks : s'.tasks = s.tasks) (acquired : s'.acquired = s.acquired)
    (daemon : s'.daemon = s.daemon) (earlier : s'.earlier = s.earlier)
    (lock : ∀ n, s'.lock = some (.request n) → s.lock = some (.request n)) : Kept P s' records where
  once := acquired ▸ h.once
  past := by
    rw [acquired, tasks]
    exact h.past
  last n mine := acquired ▸ h.last n (lock n mine)
  ordered := earlier ▸ h.ordered
  answered n reply told := h.answered n reply (by rwa [Server.outcome, tasks] at told)
  known r mem := by
    rw [Server.outcome, tasks]
    exact h.known r mem
  waits idle := by
    rw [daemon]
    exact h.waits (tasks ▸ idle)
  works n o p there := by
    rw [daemon]
    exact h.works n o p (tasks ▸ there)

/-- A task that does not run moves on, and tells of nothing new. -/
theorem Kept.aside {s s' : Server Hash M} {records : List (Record Hash)} (h : Kept P s records)
    {n : ℕ} {t : Task Hash M}
    (tasks : s'.tasks = Function.update s.tasks n (some t)) (daemon : s'.daemon = s.daemon)
    (once : s'.acquired.Nodup)
    (past : ∀ m ∈ s'.acquired, (m = n ∧ t.past = true) ∨ (m ≠ n ∧ m ∈ s.acquired))
    (last : ∀ m, s'.lock = some (.request m) → s'.acquired.getLast? = some m)
    (earlier : s.earlier.Sublist s'.earlier)
    (before : ∀ o p, s.tasks n ≠ some (.running o p)) (after : ∀ o p, t ≠ .running o p)
    (told : ∀ answer, s.outcome n = some answer → s'.outcome n = some answer)
    (untold : ∀ reply, s'.outcome n = some (.ok reply) → reply.recorded = true →
      s.outcome n = some (.ok reply)) : Kept P s' records where
  once := once
  past m mem := by
    rw [tasks]
    rcases past m mem with ⟨rfl, gone⟩ | ⟨other, mem⟩
    · exact ⟨t, Function.update_self _ _ _, gone⟩
    · rw [Function.update_of_ne other]
      exact h.past m mem
  last := last
  ordered := h.ordered.trans earlier
  answered m reply said recorded := by
    by_cases same : m = n
    · subst same
      exact h.answered m reply (untold reply said recorded) recorded
    · rw [outcome_put tasks same] at said
      exact h.answered m reply said recorded
  known r mem := by
    obtain ⟨reply, said, names⟩ := h.known r mem
    by_cases same : r.writer = n
    · exact ⟨reply, same ▸ told _ (same ▸ said), names⟩
    · exact ⟨reply, (outcome_put tasks same).trans said, names⟩
  waits idle := by
    rw [daemon]
    apply h.waits
    intro m o p there
    by_cases same : m = n
    · exact before o p (same ▸ there)
    · exact idle m o p (by rw [tasks, Function.update_of_ne same]; exact there)
  works m o p there := by
    rw [daemon]
    by_cases same : m = n
    · subst same
      rw [tasks, Function.update_self] at there
      exact absurd (Option.some.inj there) (after o p)
    · rw [tasks, Function.update_of_ne same] at there
      exact h.works m o p there

theorem Kept.ahead {s : Server Hash M} {records : List (Record Hash)} (h : Kept P s records) {n : ℕ}
    (early : ∀ t, s.tasks n = some t → t.past = false) {m : ℕ} (mem : m ∈ s.acquired) : m ≠ n := by
  rintro rfl
  obtain ⟨t, there, gone⟩ := h.past m mem
  rw [early t there] at gone
  cases gone

theorem Kept.queue {s s' : Server Hash M} {records : List (Record Hash)} (h : Kept P s records)
    {n : ℕ} {t : Task Hash M}
    (tasks : s'.tasks = Function.update s.tasks n (some t)) (daemon : s'.daemon = s.daemon)
    (acquired : s'.acquired = s.acquired) (lock : s'.lock = s.lock)
    (early : ∀ t, s.tasks n = some t → t.past = false) (after : ∀ o p, t ≠ .running o p)
    (silent : ∀ reply, s'.outcome n = some (.ok reply) → reply.recorded = false) :
    Kept P s' records := by
  refine h.aside tasks daemon (acquired ▸ h.once) ?_ ?_ ?_ ?_ after ?_ ?_
  · intro m mem
    rw [acquired] at mem
    exact Or.inr ⟨h.ahead early mem, mem⟩
  · rw [lock, acquired]
    exact h.last
  · rw [Server.earlier, Server.earlier, lock, acquired]
  · intro o p there
    have early := early _ there
    cases early
  · intro answer said
    rw [Server.outcome] at said
    split at said
    · rename_i there
      have early := early _ there
      cases early
    · rename_i there
      have early := early _ there
      cases early
    · cases said
  · intro reply said recorded
    rw [silent reply said] at recorded
    cases recorded

omit [DecidableEq Hash] in
theorem earlier_sublist {s s' : Server Hash M} (acquired : s'.acquired = s.acquired)
    (lock : s'.lock = none) : s.earlier.Sublist s'.earlier := by
  have whole : s'.earlier = s.acquired := by rw [Server.earlier, lock, acquired]
  rw [whole, Server.earlier]
  split
  · exact List.dropLast_sublist _
  · exact List.Sublist.refl _

theorem Kept.ordered_concat {s : Server Hash M} {records : List (Record Hash)} (h : Kept P s records)
    {r : Record Hash} (mine : s.lock = some (.request r.writer)) :
    ((records ++ [r]).map Record.writer).Sublist s.acquired := by
  have before : s.earlier = s.acquired.dropLast := by rw [Server.earlier, mine]
  have whole : s.acquired = s.acquired.dropLast ++ [r.writer] :=
    (List.dropLast_append_getLast? _ (h.last r.writer mine)).symm
  rw [List.map_append, whole]
  exact (before ▸ h.ordered).append (List.Sublist.refl _)

theorem Kept.ledger {s : Server Hash M} {records : List (Record Hash)} (h : Kept P s records)
    (inv : Held s) (free : ∀ n, s.lock = some (.request n) → ∀ o p, s.tasks n ≠ some (.running o p)) :
    Ledger P s.daemon records := by
  apply h.waits
  intro n o p there
  exact free n (inv.owner n _ there rfl) o p there

/-- An operation that has ended has its record, if it made one, put with the others. -/
theorem Kept.release {s s' : Server Hash M} {records : List (Record Hash)} (h : Kept P s records)
    (inv : Held s) {n : ℕ} {o : Operation Hash} {answer : Except (DaemonError Hash) Reply}
    (there : s.tasks n = some (.running o (.done answer)))
    (tasks : s'.tasks = Function.update s.tasks n (some (.leaving answer)))
    (daemon : s'.daemon = s.daemon) (acquired : s'.acquired = s.acquired) (lock : s'.lock = none) :
    ∃ records, Kept P s' records := by
  obtain ⟨d, ledger, ended⟩ := h.works n o _ there
  have mine := inv.owner n _ there rfl
  have outcome : s'.outcome n = some answer := by
    rw [Server.outcome, tasks, Function.update_self]
  have silent : s.outcome n = none := by rw [Server.outcome, there]
  have quiet : ∀ m o p, s'.tasks m ≠ some (.running o p) := by
    intro m o' p found
    rw [tasks] at found
    by_cases same : m = n
    · rw [same, Function.update_self] at found
      cases found
    · rw [Function.update_of_ne same] at found
      have theirs := inv.owner m _ found rfl
      rw [mine] at theirs
      cases theirs
      exact same rfl
  have past : ∀ m ∈ s'.acquired, ∃ t, s'.tasks m = some t ∧ t.past = true := by
    intro m mem
    rw [tasks]
    by_cases same : m = n
    · subst same
      exact ⟨_, Function.update_self _ _ _, rfl⟩
    · rw [Function.update_of_ne same]
      exact h.past m (acquired ▸ mem)
  have known : ∀ r ∈ records, ∃ reply, s'.outcome r.writer = some (.ok reply) ∧ reply.names P r := by
    intro r mem
    obtain ⟨reply, said, names⟩ := h.known r mem
    have other : r.writer ≠ n := by
      rintro same
      rw [same, silent] at said
      cases said
    exact ⟨reply, (outcome_put tasks other).trans said, names⟩
  rcases ended with ⟨untouched, nothing⟩ | ⟨reply, branch, inputs, now, rfl, landed, shape, names⟩
  · refine ⟨records, acquired ▸ h.once, past, ?_, ?_, ?_, known, ?_, ?_⟩
    · intro m theirs
      rw [lock] at theirs
      cases theirs
    · exact h.ordered.trans (earlier_sublist acquired lock)
    · intro m reply said recorded
      by_cases same : m = n
      · subst same
        rw [outcome] at said
        rw [nothing reply (Option.some.inj said)] at recorded
        cases recorded
      · rw [outcome_put tasks same] at said
        exact h.answered m reply said recorded
    · intro _
      rw [daemon]
      exact ledger.untouched untouched
    · exact fun m o' p found => absurd found (quiet m o' p)
  · let r : Record Hash := ⟨n, branch, inputs.commit P now⟩
    refine ⟨records ++ [r], acquired ▸ h.once, past, ?_, ?_, ?_, ?_, ?_, ?_⟩
    · intro m theirs
      rw [lock] at theirs
      cases theirs
    · have whole : s'.earlier = s.acquired := by rw [Server.earlier, lock, acquired]
      rw [whole]
      exact h.ordered_concat mine
    · intro m reply' said recorded
      by_cases same : m = n
      · subst same
        rw [outcome] at said
        cases said
        exact ⟨r, List.mem_append_right _ List.mem_cons_self, rfl, names⟩
      · rw [outcome_put tasks same] at said
        obtain ⟨r', mem, told⟩ := h.answered m reply' said recorded
        exact ⟨r', List.mem_append_left _ mem, told⟩
    · intro r' mem
      rcases List.mem_append.mp mem with mem | mem
      · exact known r' mem
      · rw [List.mem_singleton.mp mem]
        exact ⟨reply, outcome, names⟩
    · intro _
      rw [daemon]
      exact ledger.landed landed shape n
    · exact fun m o' p found => absurd found (quiet m o' p)

/-- What a run is asked for: no file operation fails, and rollbacks go to commits of the
repository's own history. -/
def Faultless (P : Platform Hash) (s : Server Hash M) : Act Hash M → Prop
  | .fault _ => False
  | .recheck n => ∀ o, s.tasks n = some (.locked o) → o.Own P s.daemon
  | _ => True

/-- The request that is about to run brings no blob that is the text of another object. -/
def Tame (P : Platform Hash) (s : Server Hash M) : Act Hash M → Prop
  | .recheck n => ∀ o, s.tasks n = some (.locked o) → o.Plain P
  | _ => True

omit [DecidableEq Hash] in
theorem outcome_moved {s s' : Server Hash M} {n : ℕ} {t : Task Hash M}
    (tasks : s'.tasks = Function.update s.tasks n (some t))
    (silent : ∀ reply, t = .leaving (.ok reply) ∨ t = .answered (.ok reply) → reply.recorded = false) :
    ∀ reply, s'.outcome n = some (.ok reply) → reply.recorded = false := by
  intro reply said
  apply silent reply
  rw [Server.outcome, tasks, Function.update_self] at said
  cases t with
  | leaving answer =>
    cases said
    exact Or.inl rfl
  | answered answer =>
    cases said
    exact Or.inr rfl
  | _ => cases said

omit [DecidableEq Hash] in
theorem outcome_of_holds {s : Server Hash M} {n : ℕ} {t : Task Hash M} (there : s.tasks n = some t)
    (holds : t.holds = true) : s.outcome n = none := by
  rw [Server.outcome, there]
  cases t with
  | locked o => rfl
  | running o p => rfl
  | _ => cases holds

/-- The holder of the lock begins its operation or goes on with it. -/
theorem Kept.running {s s' : Server Hash M} {records : List (Record Hash)} (h : Kept P s records)
    (inv : Held s) {n : ℕ} {t : Task Hash M} {o : Operation Hash} {p : DaemonProgram Hash M Reply}
    (there : s.tasks n = some t) (holds : t.holds = true)
    (tasks : s'.tasks = Function.update s.tasks n (some (.running o p)))
    (acquired : s'.acquired = s.acquired) (lock : s'.lock = s.lock)
    (works : ∃ d, Ledger P d records ∧
      p.Safe False (Mid P records d) (Ended P records n d) s'.daemon) : Kept P s' records := by
  have mine := inv.owner n t there holds
  constructor
  · rw [acquired]
    exact h.once
  · intro m mem
    rw [tasks]
    by_cases same : m = n
    · subst same
      exact ⟨_, Function.update_self _ _ _, rfl⟩
    · rw [Function.update_of_ne same]
      exact h.past m (acquired ▸ mem)
  · rw [lock, acquired]
    exact h.last
  · rw [Server.earlier, lock, acquired]
    exact h.ordered
  · intro m reply said recorded
    by_cases same : m = n
    · subst same
      rw [Server.outcome, tasks, Function.update_self] at said
      cases said
    · rw [outcome_put tasks same] at said
      exact h.answered m reply said recorded
  · intro r mem
    obtain ⟨reply, said, names⟩ := h.known r mem
    have other : r.writer ≠ n := by
      intro same
      rw [same, outcome_of_holds there holds] at said
      cases said
    exact ⟨reply, (outcome_put tasks other).trans said, names⟩
  · intro idle
    exact absurd (by rw [tasks, Function.update_self]) (idle n o p)
  · intro m o' p' found
    by_cases same : m = n
    · subst same
      rw [tasks, Function.update_self] at found
      cases found
      exact works
    · rw [tasks, Function.update_of_ne same] at found
      have theirs := inv.owner m _ found rfl
      rw [mine] at theirs
      cases theirs
      exact absurd rfl same

/- One lemma for each action. -/

section

variable {s : Server Hash M} {records : List (Record Hash)}

omit [DecidableEq Hash] in
theorem early_of {n : ℕ} {t : Task Hash M} (there : s.tasks n = some t) (early : t.past = false) :
    ∀ t', s.tasks n = some t' → t'.past = false := by
  intro t' found
  rw [there] at found
  cases found
  exact early

theorem Kept.arrive (h : Kept P s records) (n : ℕ) (o : Operation Hash) :
    Kept P (Daemon.step P hmac config s (.arrive n o)) records := by
  simp only [Daemon.step]
  split
  · rename_i absent
    refine h.queue rfl rfl rfl rfl ?_ (by rintro _ _ ⟨⟩)
      (outcome_moved rfl (by rintro _ (same | same) <;> cases same))
    intro t there
    rw [absent] at there
    cases there
  · exact h

theorem Kept.checkShutdown (h : Kept P s records) (n : ℕ) :
    Kept P (Daemon.step P hmac config s (.checkShutdown n)) records := by
  simp only [Daemon.step]
  split
  · rename_i o there
    have early := early_of there rfl
    split
    · exact h.queue rfl rfl rfl rfl early (by rintro _ _ ⟨⟩)
        (outcome_moved rfl (by rintro _ (same | same) <;> cases same))
    · exact h.queue rfl rfl rfl rfl early (by rintro _ _ ⟨⟩)
        (outcome_moved rfl (by rintro _ (same | same) <;> cases same))
  · exact h

theorem Kept.tryCommitSlot (h : Kept P s records) (n : ℕ) :
    Kept P (Daemon.step P hmac config s (.tryCommitSlot n)) records := by
  simp only [Daemon.step]
  split
  · rename_i o there
    have early := early_of there rfl
    split
    · refine h.queue rfl rfl rfl rfl early (by rintro _ _ ⟨⟩) (outcome_moved rfl ?_)
      rintro reply (same | same)
      · cases same
      · cases same
        rfl
    · exact h.queue rfl rfl rfl rfl early (by rintro _ _ ⟨⟩)
        (outcome_moved rfl (by rintro _ (same | same) <;> cases same))
  · exact h

theorem Kept.acquire (h : Kept P s records) (n : ℕ) :
    Kept P (Daemon.step P hmac config s (.acquire n)) records := by
  simp only [Daemon.step]
  split
  · rename_i o there free
    have early := early_of there rfl
    refine h.aside rfl rfl ?_ ?_ ?_ ?_ ?_ (by rintro _ _ ⟨⟩) ?_ ?_
    · rw [← List.concat_eq_append]
      exact h.once.concat (fun mem => h.ahead early mem rfl)
    · intro m mem
      rcases List.mem_append.mp mem with mem | mem
      · exact Or.inr ⟨h.ahead early mem, mem⟩
      · exact Or.inl ⟨List.mem_singleton.mp mem, rfl⟩
    · rintro m ⟨⟩
      exact List.getLast?_concat
    · show s.earlier.Sublist (s.acquired ++ [n]).dropLast
      rw [List.dropLast_concat, Server.earlier, free]
    · intro o' p found
      rw [there] at found
      cases found
    · intro answer said
      rw [Server.outcome, there] at said
      cases said
    · intro reply said recorded
      rw [outcome_moved (t := .locked o) rfl (by rintro _ (same | same) <;> cases same) reply said] at recorded
      cases recorded
  · exact h

theorem Kept.recheck (h : Kept P s records) (inv : Held s) (n : ℕ)
    (own : ∀ o, s.tasks n = some (.locked o) → o.Own P s.daemon)
    (plain : ∀ o, s.tasks n = some (.locked o) → o.Plain P) :
    Kept P (Daemon.step P hmac config s (.recheck n)) records := by
  simp only [Daemon.step]
  split
  · rename_i o there
    have mine := inv.owner n _ there rfl
    split
    · refine h.aside rfl rfl h.once ?_ (by rintro _ ⟨⟩) (earlier_sublist rfl rfl) ?_ (by rintro _ _ ⟨⟩) ?_ ?_
      · intro m mem
        by_cases same : m = n
        · exact Or.inl ⟨same, rfl⟩
        · exact Or.inr ⟨same, mem⟩
      · intro o' p found
        rw [there] at found
        cases found
      · intro answer said
        rw [outcome_of_holds there rfl] at said
        cases said
      · intro reply said recorded
        rw [outcome_moved (t := .leaving (.error shuttingDown)) rfl
          (by rintro _ (same | same) <;> cases same) reply said] at recorded
        cases recorded
    · have ledger : Ledger P s.daemon records := by
        apply h.ledger inv
        intro m theirs o' p found
        rw [mine] at theirs
        cases theirs
        rw [there] at found
        cases found
      exact h.running inv there rfl rfl rfl rfl
        ⟨s.daemon, ledger, Operation.respond_safe ledger (plain o there) (own o there) n⟩
  · exact h

theorem Kept.operate (h : Kept P s records) (inv : Held s) (n : ℕ) :
    Kept P (Daemon.step P hmac config s (.operate n)) records := by
  simp only [Daemon.step]
  split
  · rename_i o act next fault there
    obtain ⟨d, ledger, safe⟩ := h.works n o _ there
    exact h.running inv there rfl rfl rfl rfl ⟨d, ledger, safe.2.1⟩
  · exact h

theorem Kept.leave (h : Kept P s records) (n : ℕ) : Kept P (Daemon.step P hmac config s (.leave n)) records := by
  simp only [Daemon.step]
  split
  · rename_i answer there
    have before : s.outcome n = some answer := by rw [Server.outcome, there]
    have after : ∀ s' : Server Hash M,
        s'.tasks = Function.update s.tasks n (some (.answered answer)) →
        s'.outcome n = s.outcome n := by
      intro s' tasks
      rw [before, Server.outcome, tasks, Function.update_self]
    refine h.aside rfl rfl h.once ?_ h.last (List.Sublist.refl _) ?_ (by rintro _ _ ⟨⟩) ?_ ?_
    · intro m mem
      by_cases same : m = n
      · exact Or.inl ⟨same, rfl⟩
      · exact Or.inr ⟨same, mem⟩
    · intro o p found
      rw [there] at found
      cases found
    · intro answer' said
      exact (after _ rfl).trans said
    · intro reply said _
      exact (after _ rfl).symm.trans said
  · exact h

theorem Kept.drain (h : Kept P s records) : Kept P (Daemon.step P hmac config s .drain) records := by
  simp only [Daemon.step]
  split
  · split
    · exact h.same rfl rfl rfl rfl (fun _ mine => mine)
    · exact h
  · exact h

theorem Kept.drainAcquire (h : Kept P s records) :
    Kept P (Daemon.step P hmac config s .drainAcquire) records := by
  simp only [Daemon.step]
  split
  · rename_i free
    refine h.same rfl rfl rfl ?_ (by rintro _ ⟨⟩)
    rw [Server.earlier, Server.earlier, free]
  · exact h

theorem Kept.drainReturn (h : Kept P s records) (inv : Held s) :
    Kept P (Daemon.step P hmac config s .drainReturn) records := by
  simp only [Daemon.step]
  split
  · rename_i holding
    refine h.same rfl rfl rfl ?_ (by rintro _ ⟨⟩)
    rw [Server.earlier, Server.earlier, inv.draining holding]
  · exact h

theorem Kept.background (h : Kept P s records) (inv : Held s) (b : AdapterProgram Hash M Unit)
    (work : FileTree Bytes) (memory : M) :
    Kept P (Daemon.step P hmac config s (.background b work memory)) records := by
  simp only [Daemon.step]
  split
  · exact h
  · rename_i free
    have ledger : Ledger P s.daemon records := h.ledger inv (fun n mine => absurd mine (free n))
    have added : Adds False P (fun _ _ => True) (b.toProgram P config.store) s.daemon :=
      Adds.toProgram b ledger.intact.typed
    have same := (Program.Safe.run added).1.untouched ledger.intact
    refine ⟨h.once, h.past, h.last, h.ordered, h.answered, h.known, ?_, ?_⟩
    · exact fun _ => ledger.untouched ⟨same.kept, same.confined, same.refs⟩
    · exact fun n o p there => absurd (inv.owner n _ there rfl) (free n)

theorem Kept.step (h : Kept P s records) (inv : Held s) {a : Act Hash M} (faultless : Faultless P s a)
    (tame : Tame P s a) : ∃ records, Kept P (Daemon.step P hmac config s a) records := by
  cases a with
  | arrive n o => exact ⟨records, h.arrive n o⟩
  | checkShutdown n => exact ⟨records, h.checkShutdown n⟩
  | tryCommitSlot n => exact ⟨records, h.tryCommitSlot n⟩
  | acquire n => exact ⟨records, h.acquire n⟩
  | recheck n => exact ⟨records, h.recheck inv n faultless tame⟩
  | operate n => exact ⟨records, h.operate inv n⟩
  | fault n => exact faultless.elim
  | release n =>
    simp only [Daemon.step]
    split
    · rename_i o answer there
      exact h.release inv there rfl rfl rfl rfl
    · exact ⟨records, h⟩
  | leave n => exact ⟨records, h.leave n⟩
  | cancel => exact ⟨records, h.same rfl rfl rfl rfl (fun _ mine => mine)⟩
  | drain => exact ⟨records, h.drain⟩
  | drainAcquire => exact ⟨records, h.drainAcquire⟩
  | drainReturn => exact ⟨records, h.drainReturn inv⟩
  | background b work memory => exact ⟨records, h.background inv b work memory⟩

end

/-- The records are all there is: they are in the order of the lock, every branch is one chain
of them that ends at its tip, a log lists the newest of them, a rollback takes each for its
target, and they are those that the clients are told of, but for one whose request still has
the lock. -/
structure History (P : Platform Hash) (s : Server Hash M) (records : List (Record Hash)) : Prop where
  once : s.acquired.Nodup
  ordered : (records.map Record.writer).Sublist s.acquired
  linked : Linked P records
  serves : Refs.Serves P (tip P records) s.daemon.repo.agentic
  logged : ∀ branch limit, walkLog P s.daemon.repo.objects limit (tip P records branch) =
    .ok (((onBranch branch records).reverse.take limit).map (fun r => (r.hash P, r.commit)))
  shaped : ∀ r ∈ records, r.commit.memorySnapshot.isSome = r.commit.schemaVersion.isSome ∧
    ∀ hash, Rollback.validateTargetShape P r.commit hash = .ok ()
  answered : ∀ n reply, s.outcome n = some (.ok reply) → reply.recorded = true →
    ∃ r ∈ records, r.writer = n ∧ reply.names P r
  known : ∀ r ∈ records, (∃ reply, s.outcome r.writer = some (.ok reply) ∧ reply.names P r) ∨
    s.lock = some (.request r.writer)

omit [DecidableEq Hash] in
theorem validateTargetShape_ok {c : Commit Hash}
    (shape : c.memorySnapshot.isSome = c.schemaVersion.isSome) (hash : Hash) :
    Rollback.validateTargetShape P c hash = .ok () := by
  rw [Rollback.validateTargetShape, if_neg]
  rintro ⟨some_, none_⟩
  rw [shape] at some_
  rw [Option.isNone_iff_eq_none] at none_
  rw [none_] at some_
  cases some_

theorem Kept.present {s : Server Hash M} {records : List (Record Hash)} (h : Kept P s records)
    (inv : Held s) : ∃ present, Ledger P s.daemon present ∧
      (present = records ∨ ∃ r, present = records ++ [r] ∧ s.lock = some (.request r.writer)) := by
  by_cases busy : ∃ n o p, s.tasks n = some (.running o p)
  · obtain ⟨n, o, p, there⟩ := busy
    have mine := inv.owner n _ there rfl
    obtain ⟨d, ledger, safe⟩ := h.works n o p there
    have moved : Mid P records d s.daemon := by
      cases p with
      | op act next fault => exact safe.1
      | done answer =>
        rcases safe with ⟨untouched, _⟩ | ⟨_, branch, inputs, now, _, landed, shape, _⟩
        · exact Or.inl untouched
        · exact Or.inr ⟨branch, inputs, now, landed, shape⟩
    rcases moved with untouched | ⟨branch, inputs, now, landed, shape⟩
    · exact ⟨records, ledger.untouched untouched, Or.inl rfl⟩
    · exact ⟨_, ledger.landed landed shape n, Or.inr ⟨_, rfl, mine⟩⟩
  · refine ⟨records, h.waits ?_, Or.inl rfl⟩
    intro n o p there
    exact busy ⟨n, o, p, there⟩

theorem Kept.history {s : Server Hash M} {records : List (Record Hash)} (h : Kept P s records)
    (inv : Held s) : ∃ present, History P s present := by
  obtain ⟨present, ledger, same⟩ := h.present inv
  have rest : ∀ r ∈ records, r ∈ present := by
    intro r mem
    rcases same with rfl | ⟨r', rfl, _⟩
    · exact mem
    · exact List.mem_append_left _ mem
  refine ⟨present, h.once, ?_, ledger.linked, ledger.intact.refs.serves,
    walkLog_records ledger.linked ledger.stored, ?_, ?_, ?_⟩
  · rcases same with rfl | ⟨r, rfl, mine⟩
    · refine h.ordered.trans ?_
      rw [Server.earlier]
      split
      · exact List.dropLast_sublist _
      · exact List.Sublist.refl _
    · exact h.ordered_concat mine
  · exact fun r mem => ⟨ledger.shaped r mem, validateTargetShape_ok (ledger.shaped r mem)⟩
  · intro n reply said recorded
    obtain ⟨r, mem, told⟩ := h.answered n reply said recorded
    exact ⟨r, rest r mem, told⟩
  · intro r mem
    rcases same with rfl | ⟨r', rfl, mine⟩
    · exact Or.inl (h.known r mem)
    · rcases List.mem_append.mp mem with mem | mem
      · exact Or.inl (h.known r mem)
      · rw [List.mem_singleton.mp mem]
        exact Or.inr mine

/-- Where no request brings a blob that is the text of another object, the branches are
single chains of what was written, in the order of the lock, in every state of every run. -/
theorem linear_history {s : Server Hash M} (start : Initial s) (bare : Bare s.daemon)
    {acts : List (Act Hash M)}
    (along : Runs.Along (Daemon.step P hmac config) (fun s a => Faultless P s a ∧ Tame P s a) acts s) :
    ∃ records, History P (run P hmac config acts s) records := by
  have keeps : ∀ (s : Server Hash M) (a : Act Hash M), (∃ records, Kept P s records ∧ Held s) →
      Faultless P s a ∧ Tame P s a → ∃ records, Kept P (Daemon.step P hmac config s a) records ∧
        Held (Daemon.step P hmac config s a) := by
    rintro s a ⟨records, kept, held⟩ ⟨faultless, tame⟩
    obtain ⟨records, kept⟩ := kept.step held faultless tame
    exact ⟨records, kept, held.step a⟩
  obtain ⟨records, kept, held⟩ := along.invariant keeps ⟨[], start.kept bare, start.held⟩
  exact kept.history held

theorem along_hello {s : Server Bytes Unit} {n : ℕ} (calm : Calm s n) (ops : ℕ) :
    Runs.Along (Daemon.step Platform.sample (fun _ m => m) quiet)
      (fun s a => Faultless Platform.sample s a ∧ Tame Platform.sample s a) (serve n helloOperation ops) s := by
  refine along_serve helloOperation ops ?_ ?_
  · intro a later sound s
    cases a with
    | recheck n => exact absurd rfl (later n)
    | fault n => exact absurd rfl (sound n)
    | _ => exact ⟨trivial, trivial⟩
  · rw [run_queue calm]
    refine ⟨fun o there => ?_, fun o there => ?_⟩
    · obtain rfl : helloOperation = o := Task.locked.inj (Option.some.inj
        ((Function.update_self n _ _).symm.trans there))
      trivial
    · obtain rfl : helloOperation = o := Task.locked.inj (Option.some.inj
        ((Function.update_self n _ _).symm.trans there))
      exact hello_plain

/-- The same commit twice, one after the other. -/
theorem linear_history_hello :
    let answer := helloOperation.respond Platform.sample (fun _ m => m) quiet
    let first : List (Act Bytes Unit) := serve 0 helloOperation (answer.ops Daemon.start)
    let second := serve 1 helloOperation (answer.ops (answer.run Daemon.start).2)
    ∃ records, History Platform.sample
      (run Platform.sample (fun _ m => m) quiet (first ++ second) (fresh Daemon.start)) records := by
  intro answer first second
  have calm : Calm (fresh Daemon.start : Server Bytes Unit) 0 := ⟨rfl, rfl, rfl, by decide⟩
  have served : run Platform.sample (fun _ m => m) quiet first (fresh Daemon.start) = _ :=
    run_serve calm rfl helloOperation
  refine linear_history (fresh_initial Daemon.start) ⟨fun _ => rfl, Refs.opened_fresh⟩
    ((along_hello calm _).append (along_hello ?_ _))
  rw [show Runs.run (Daemon.step Platform.sample (fun _ m => m) quiet) first (fresh Daemon.start) = _ from served]
  exact ⟨rfl, rfl, rfl, by decide⟩

/-- A commit with a message only, on the branch `dev`. -/
def devInput : CommitInput where
  message := "b"
  author := none
  codeSha := none
  branch := some "dev"
  prompts := BTreeMap.empty
  mcpServers := []
  model := none
  noMemory := true

def devInputs : CommitInputs Bytes :=
  Commit.assembleInputs devInput none none none BTreeMap.empty none []

def devCommit : Commit Bytes := devInputs.commit Platform.sample 0

/-- A commit on `main` that gives the text of the other commit for its model. -/
def mimicInput : CommitInput :=
  { devInput with
    message := "a"
    branch := none
    model := some (Platform.sample.toText (.object (devCommit.members Platform.sample))) }

def mimicInputs : CommitInputs Bytes :=
  Commit.assembleInputs mimicInput none none none BTreeMap.empty none []

def mimicHash : Bytes := (Object.commit (mimicInputs.commit Platform.sample 0)).hash Platform.sample

def devHash : Bytes := (Object.commit devCommit).hash Platform.sample

def mainRefs : FileTree TextFile :=
  ((Refs.writeHeadSymbolic "main" : Refs.RefsProgram Bytes Unit).run
    ((Refs.writeBranch Platform.sample "main" mimicHash).run Refs.opened).2).2

theorem quiet_accepts (bytes : Bytes) (policy : ScanPolicy) :
    quiet.store.Accepts Platform.sample bytes policy := Or.inl (Scanner.scanWith_silent bytes policy)

theorem quiet_stages (inputs : CommitInputs Bytes) (prompts : inputs.prompts = BTreeMap.empty)
    (tools : inputs.tools = BTreeMap.empty) (intent : inputs.intent = none) (plan : inputs.plan = none)
    (transcript : inputs.transcript = none) (evals : inputs.evals = none) (files : Files) :
    Puts Platform.sample (stageCommit Platform.sample quiet.store inputs 0) files
      ((Object.commit (inputs.commit Platform.sample 0)).hash Platform.sample)
      ((modelBytes inputs.model).toList.map (fun bytes => .blob ⟨bytes⟩) ++
        [.commit (inputs.commit Platform.sample 0)]) := by
  have accepts := quiet_accepts
  have all : quiet.store.AcceptsInputs Platform.sample inputs :=
    ⟨fun e _ => accepts e.2 _, fun e _ => accepts e.2 _, fun b _ => accepts b _, fun b _ => accepts b _,
      fun b _ => accepts b _, fun b _ => accepts b _, fun b _ => accepts b _⟩
  have puts := stageCommit_puts all 0 files
  simpa [CommitInputs.objects, treeObjects, prompts, tools, intent, plan, transcript, evals,
    BTreeMap.empty] using puts

theorem mimic_run : ∃ objects, (Commit.executeWithNow Platform.sample quiet mimicInput none [] 0).run
      Daemon.start =
      (.ok { commitHash := Platform.sample.toHex mimicHash, branch := "main" },
        { Daemon.start with repo := { objects, agentic := mainRefs } }) ∧
    slots Platform.sample objects devHash =
      some (Object.write Platform.sample (.blob ⟨devHash⟩)).2 := by
  have head : (Refs.readHead Platform.sample).run Daemon.start.repo.agentic =
      (.ok none, Daemon.start.repo.agentic) :=
    Prod.ext (by decide +kernel) (Refs.readHead_still.run _)
  have absent : (Refs.readBranch Platform.sample "main").run Daemon.start.repo.agentic =
      (.ok none, Daemon.start.repo.agentic) :=
    Prod.ext (by decide +kernel) ((Refs.readBranch_still "main").run _)
  have moved : (Refs.writeBranch Platform.sample "main" mimicHash).run Daemon.start.repo.agentic =
      (.ok (), ((Refs.writeBranch Platform.sample "main" mimicHash).run Refs.opened).2) :=
    Prod.ext (by decide +kernel) rfl
  obtain ⟨objects, staged, held⟩ := quiet_stages mimicInputs rfl rfl rfl rfl rfl rfl
    Daemon.start.repo.objects
  refine ⟨objects, ?_, ?_⟩
  · exact Commit.run_execute rfl rfl head absent staged moved
  · have model : modelBytes mimicInputs.model = some devHash := by
      show some (utf8 (String.ofList _).toList) = _
      rw [String.toList_ofList]
      rfl
    rw [held, WriteOnce.puts_apply, model]
    have first : (Object.write Platform.sample (.blob ⟨devHash⟩ : Object Bytes)).1 = devHash := rfl
    simp [Daemon.start, slots, first]

theorem dev_run (objects : Files) : ∃ objects' agentic,
    (Commit.executeWithNow Platform.sample quiet devInput none [] 0).run
        { Daemon.start with repo := { objects, agentic := mainRefs } } =
      (.ok { commitHash := Platform.sample.toHex devHash, branch := "dev" },
        { Daemon.start with repo := { objects := objects', agentic } }) ∧
    ∀ bytes, slots Platform.sample objects devHash = some bytes →
      slots Platform.sample objects' devHash = some bytes := by
  have head : (Refs.readHead Platform.sample).run mainRefs = (.ok (some (.branch "main")), mainRefs) :=
    Prod.ext (by decide +kernel) (Refs.readHead_still.run _)
  have absent : (Refs.readBranch Platform.sample "dev").run mainRefs = (.ok none, mainRefs) :=
    Prod.ext (by decide +kernel) ((Refs.readBranch_still "dev").run _)
  have moved : (Refs.writeBranch Platform.sample "dev" devHash).run mainRefs =
      (.ok (), ((Refs.writeBranch Platform.sample "dev" devHash).run mainRefs).2) :=
    Prod.ext (by decide +kernel) rfl
  obtain ⟨objects', staged, held⟩ := quiet_stages devInputs rfl rfl rfl rfl rfl rfl objects
  refine ⟨objects', _, Commit.run_execute rfl rfl head absent staged moved, ?_⟩
  intro bytes there
  rw [held, WriteOnce.puts_apply, there]
  rfl

theorem History.has {s : Server Hash M} {records : List (Record Hash)} (h : History P s records)
    {r : Record Hash} (mem : r ∈ records) :
    Has P s.daemon.repo.objects (r.hash P) (.commit r.commit) := by
  have inBranch : r ∈ onBranch r.branch records := List.mem_filter.mpr ⟨mem, by simp⟩
  have short : (onBranch r.branch records).reverse.length ≤ records.length := by
    rw [List.length_reverse]
    exact List.length_filter_le _ _
  have logged := h.logged r.branch records.length
  rw [List.take_of_length_le short] at logged
  exact mem_walkLog logged _ (List.mem_map.mpr ⟨r, List.mem_reverse.mpr inBranch, rfl⟩)

/-- Two requests, one after the other. -/
theorem run_both {d between : Daemon M} {o₁ o₂ : Operation Hash}
    (own : ∀ d : Daemon M, o₁.Own P d ∧ o₂.Own P d)
    (first : ((o₁.respond P hmac config).run d).2 = between) :
    ∃ acts : List (Act Hash M), Runs.Along (Daemon.step P hmac config) (Faultless P) acts (fresh d) ∧
      (run P hmac config acts (fresh d)).daemon = ((o₂.respond P hmac config).run between).2 ∧
      (run P hmac config acts (fresh d)).outcome 1 =
        some ((o₂.respond P hmac config).run between).1 := by
  let s : Server Hash M := fresh d
  let s₁ : Server Hash M := { s with daemon := between, acquired := [0] }.put 0
    (.answered ((o₁.respond P hmac config).run d).1)
  have others : ∀ a : Act Hash M, (∀ m, a ≠ .recheck m) → (∀ m, a ≠ .fault m) →
      ∀ s, Faultless P s a := by
    intro a later sound s
    cases a with
    | recheck n => exact absurd rfl (later n)
    | fault n => exact absurd rfl (sound n)
    | _ => trivial
  have served : run P hmac config (serve 0 o₁ ((o₁.respond P hmac config).ops d)) s = s₁ := by
    have calm : Calm s 0 := ⟨rfl, rfl, rfl, Nat.two_pos⟩
    have here : s.daemon = d := rfl
    rw [run_serve calm here, first]
    rfl
  have calm : Calm s₁ 1 := ⟨rfl, rfl, rfl, Nat.two_pos⟩
  have here : s₁.daemon = between := rfl
  refine ⟨serve 0 o₁ ((o₁.respond P hmac config).ops d) ++
    serve 1 o₂ ((o₂.respond P hmac config).ops between), ?_, ?_, ?_⟩
  · refine Runs.Along.append (along_serve o₁ _ others ?_) ?_
    · intro o there
      rw [run_queue ⟨rfl, rfl, rfl, Nat.two_pos⟩] at there
      cases there
      exact (own _).1
    · show Runs.Along _ _ _ (run P hmac config _ s)
      rw [served]
      refine along_serve o₂ _ others ?_
      intro o there
      rw [run_queue calm] at there
      cases there
      exact (own _).2
  · rw [run, Runs.run_append]
    show (run P hmac config _ (run P hmac config _ s)).daemon = _
    rw [served, run_serve calm here]
    rfl
  · rw [run, Runs.run_append]
    show (run P hmac config _ (run P hmac config _ s)).outcome 1 = _
    rw [served, run_serve calm here]
    rfl

omit [DecidableEq Hash] in
theorem Reply.hash_of_names {r : Record Hash} {hash : Hash} {branch : String}
    (told : (Reply.commit { commitHash := P.toHex hash, branch }).names P r) : r.hash P = hash := by
  have hex : P.toHex hash = P.toHex (r.hash P) := congrArg CommitOutput.commitHash told
  exact (P.hex_injective (String.ofList_injective hex)).symm

theorem respond_commit {input : CommitInput} {d d' : Daemon M} {out : CommitOutput}
    (ran : (Commit.executeWithNow P config input none [] 0).run d = (.ok out, d')) :
    ((Operation.commit input none [] 0).respond P hmac config).run d = (.ok (.commit out), d') := by
  show (Program.bind (Commit.executeWithNow P config input none [] 0) _).run d = _
  rw [Program.run_bind, ran]
  rfl

/-- The model of a commit on `main` can be the text of a later commit on `dev`, which then
cannot be read. -/
theorem not_always_linear :
    ¬ ∀ (s : Server Bytes Unit) (acts : List (Act Bytes Unit)), Initial s → Bare s.daemon →
      Runs.Along (Daemon.step Platform.sample (fun _ m => m) quiet) (Faultless Platform.sample) acts s →
      ∃ records, History Platform.sample (run Platform.sample (fun _ m => m) quiet acts s) records := by
  intro always
  obtain ⟨objects, mimic, blob⟩ := mimic_run
  obtain ⟨objects', agentic, dev, kept⟩ := dev_run objects
  let hmac : Hmac := fun _ m => m
  have first := (respond_commit mimic : ((Operation.commit mimicInput none [] 0).respond
    Platform.sample hmac quiet).run Daemon.start = _)
  have second := (respond_commit dev : ((Operation.commit devInput none [] 0).respond
    Platform.sample hmac quiet).run _ = _)
  have own : ∀ d : Daemon Unit,
      Operation.Own Platform.sample d (.commit mimicInput none [] 0) ∧
        Operation.Own Platform.sample d (.commit devInput none [] 0) := fun _ => ⟨trivial, trivial⟩
  obtain ⟨acts, along, ended, said⟩ := run_both own (congrArg Prod.snd first)
  rw [second] at ended said
  obtain ⟨records, history⟩ := always (fresh Daemon.start) acts (fresh_initial _)
    ⟨fun _ => rfl, Refs.opened_fresh⟩ along
  obtain ⟨r, mem, _, told⟩ := history.answered 1 _ said rfl
  have isCommit := history.has mem
  rw [Reply.hash_of_names told, ended] at isCommit
  have isBlob := has_of_slot (P := Platform.sample) (o := .blob ⟨devHash⟩) (kept _ blob)
  cases isBlob.symm.trans isCommit

end Daemon

end GitAgentic
