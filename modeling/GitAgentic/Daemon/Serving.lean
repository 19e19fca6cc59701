import GitAgentic.Daemon.CrashSafety
import GitAgentic.Data.Runs

/-! Requests served at once: the shutdown token, the slots of the commit queue, the commit
lock that its waiters take in any order, and the drain that follows the signal. -/
namespace GitAgentic

namespace Daemon

variable {Hash M : Type}

/-- What a request that takes the lock is answered with. -/
inductive Reply where
  | commit (out : CommitOutput)
  | rollback (out : RollbackOutput)
  | diff
  | commitQueueFull

/-- Commits and rollbacks look at the shutdown token, before the queue and under the lock.
A diff does not, and writes nothing. -/
def Operation.writes : Operation Hash → Bool
  | .commit .. | .rollback .. => true
  | .diff => false

section

variable [DecidableEq Hash] (P : Platform Hash) (hmac : Hmac) (config : DaemonConfig Hash M)

def Operation.respond : Operation Hash → DaemonProgram Hash M Reply
  | .commit input peerUid fingerprints now => do
    return .commit (← Commit.executeWithNow P config input peerUid fingerprints now)
  | .rollback args peerUid nowSeconds now => do
    return .rollback (← Rollback.execute P hmac config args peerUid nowSeconds now)
  | .diff => do
    let _ ← onDaemonRefs (Refs.snapshot P)
    return .diff

theorem Operation.program_eq (o : Operation Hash) :
    o.program P hmac config = (o.respond P hmac config).bind (fun _ => .done (.ok ())) := by
  cases o with
  | commit input peerUid fingerprints now =>
    exact (Program.bind_assoc _ (fun out => .done (.ok (Reply.commit out)))
      (fun _ => .done (.ok ()))).symm
  | rollback args peerUid nowSeconds now =>
    exact (Program.bind_assoc _ (fun out => .done (.ok (Reply.rollback out)))
      (fun _ => .done (.ok ()))).symm
  | diff =>
    exact (Program.bind_assoc _ (fun _ => .done (.ok Reply.diff)) (fun _ => .done (.ok ()))).symm

theorem Operation.respond_still {o : Operation Hash} (reads : o.writes = false) :
    (o.respond P hmac config).Still := by
  cases o with
  | commit _ _ _ _ => cases reads
  | rollback _ _ _ _ => cases reads
  | diff => exact Program.Still.bind (onDaemonRefs_still Refs.snapshot_still) (fun _ => trivial)

end

/-- How far a request has come. From `queued` to `leaving` it holds a slot of the queue, and
while it is `locked` or `running` the lock. -/
inductive Task (Hash M : Type) where
  | received (o : Operation Hash)
  | checked (o : Operation Hash)
  | queued (o : Operation Hash)
  | locked (o : Operation Hash)
  | running (o : Operation Hash) (rest : DaemonProgram Hash M Reply)
  | leaving (answer : Except (DaemonError Hash) Reply)
  | answered (answer : Except (DaemonError Hash) Reply)

inductive Drain where
  | idle
  | waiting
  | holding
  | returned

/-- Who holds the lock. -/
inductive Party where
  | request (n : ℕ)
  | drain

/-- The requests are numbered. `acquired` lists those that have had the lock, in the order in
which they got it; no code reads it. -/
structure Server (Hash M : Type) where
  daemon : Daemon M
  tasks : ℕ → Option (Task Hash M)
  shutdown : Bool
  commitSlots : ℕ
  lock : Option Party
  drain : Drain
  acquired : List ℕ

def Server.put (s : Server Hash M) (n : ℕ) (t : Task Hash M) : Server Hash M :=
  { s with tasks := Function.update s.tasks n (some t) }

/-- The answer that the request has got or is about to get. -/
def Server.outcome (s : Server Hash M) (n : ℕ) : Option (Except (DaemonError Hash) Reply) :=
  match s.tasks n with
  | some (.leaving answer) | some (.answered answer) => some answer
  | _ => none

def shuttingDown : DaemonError Hash :=
  .text "daemon is shutting down; refusing new write-path work"

/-- What can happen next. `background` is what goes on while no request has the lock: the
backend stores segments, and the working directory and its state change at will. -/
inductive Act (Hash M : Type) where
  | arrive (n : ℕ) (o : Operation Hash)
  | checkShutdown (n : ℕ)
  | tryCommitSlot (n : ℕ)
  | acquire (n : ℕ)
  | recheck (n : ℕ)
  | operate (n : ℕ)
  | fault (n : ℕ)
  | release (n : ℕ)
  | leave (n : ℕ)
  | cancel
  | drain
  | drainAcquire
  | drainReturn
  | background (b : AdapterProgram Hash M Unit) (work : FileTree Bytes) (memory : M)

variable [DecidableEq Hash] (P : Platform Hash) (hmac : Hmac) (config : DaemonConfig Hash M)

/-- What cannot happen changes nothing. -/
def step (s : Server Hash M) : Act Hash M → Server Hash M
  | .arrive n o =>
    match s.tasks n with
    | none => s.put n (.received o)
    | some _ => s
  | .checkShutdown n =>
    match s.tasks n with
    | some (.received o) =>
      if o.writes ∧ s.shutdown then s.put n (.answered (.error shuttingDown)) else s.put n (.checked o)
    | _ => s
  | .tryCommitSlot n =>
    match s.tasks n with
    | some (.checked o) =>
      match s.commitSlots with
      | 0 => s.put n (.answered (.ok .commitQueueFull))
      | slots + 1 => { s with commitSlots := slots }.put n (.queued o)
    | _ => s
  | .acquire n =>
    match s.tasks n, s.lock with
    | some (.queued o), none =>
      { s with lock := some (.request n), acquired := s.acquired ++ [n] }.put n (.locked o)
    | _, _ => s
  | .recheck n =>
    match s.tasks n with
    | some (.locked o) =>
      if o.writes ∧ s.shutdown then { s with lock := none }.put n (.leaving (.error shuttingDown))
      else s.put n (.running o (o.respond P hmac config))
    | _ => s
  | .operate n =>
    match s.tasks n with
    | some (.running o (.op act next _)) =>
      { s with daemon := act s.daemon }.put n (.running o (next s.daemon))
    | _ => s
  | .fault n =>
    match s.tasks n with
    | some (.running o (.op _ _ fault)) => s.put n (.running o fault)
    | _ => s
  | .release n =>
    match s.tasks n with
    | some (.running _ (.done answer)) => { s with lock := none }.put n (.leaving answer)
    | _ => s
  | .leave n =>
    match s.tasks n with
    | some (.leaving answer) => { s with commitSlots := s.commitSlots + 1 }.put n (.answered answer)
    | _ => s
  | .cancel => { s with shutdown := true }
  | .drain =>
    match s.drain with
    | .idle => if s.shutdown then { s with drain := .waiting } else s
    | _ => s
  | .drainAcquire =>
    match s.drain, s.lock with
    | .waiting, none => { s with lock := some .drain, drain := .holding }
    | _, _ => s
  | .drainReturn =>
    match s.drain with
    | .holding => { s with lock := none, drain := .returned }
    | _ => s
  | .background b work memory =>
    match s.lock with
    | some (.request _) => s
    | _ => { s with daemon := { ((b.toProgram P config.store).run s.daemon).2 with work, memory } }

abbrev run : List (Act Hash M) → Server Hash M → Server Hash M := Runs.run (step P hmac config)

/-- Nobody has asked for anything yet. -/
structure Initial (s : Server Hash M) : Prop where
  tasks : ∀ n, s.tasks n = none
  lock : s.lock = none
  drain : s.drain = .idle
  acquired : s.acquired = []

variable {P hmac config}

def Task.holds : Task Hash M → Bool
  | .locked _ | .running _ _ => true
  | _ => false

/-- A commit or rollback between its second look at the token and its end. -/
def Task.writing : Task Hash M → Bool
  | .running o _ => o.writes
  | _ => false

/-- The lock has one holder, the drain follows the signal, and no write outlives it. -/
structure Held (s : Server Hash M) : Prop where
  owner : ∀ n t, s.tasks n = some t → t.holds = true → s.lock = some (.request n)
  draining : s.drain = .holding → s.lock = some .drain
  signalled : s.drain ≠ .idle → s.shutdown = true
  quiet : s.drain = .returned → ∀ n t, s.tasks n = some t → t.writing = false
  reads : ∀ n o p, s.tasks n = some (.running o p) → o.writes = false → p.Still

omit [DecidableEq Hash] in
theorem Initial.held {s : Server Hash M} (start : Initial s) : Held s where
  owner n t there := by rw [start.tasks n] at there; cases there
  draining holding := by rw [start.drain] at holding; cases holding
  signalled busy := absurd start.drain busy
  quiet returned := by rw [start.drain] at returned; cases returned
  reads n o p there := by rw [start.tasks n] at there; cases there

omit [DecidableEq Hash] in
theorem Held.move {s s' : Server Hash M} (inv : Held s) {n : ℕ} {t : Task Hash M}
    (tasks : s'.tasks = Function.update s.tasks n (some t)) (drain : s'.drain = s.drain)
    (shutdown : s'.shutdown = s.shutdown)
    (others : ∀ m t', m ≠ n → s.tasks m = some t' → t'.holds = true → s'.lock = some (.request m))
    (own : t.holds = true → s'.lock = some (.request n))
    (draining : s.drain = .holding → s'.lock = some .drain)
    (quiet : s.drain = .returned → t.writing = false)
    (reads : ∀ o p, t = .running o p → o.writes = false → p.Still) : Held s' := by
  have cases_ : ∀ m t', s'.tasks m = some t' → (m = n ∧ t' = t) ∨ (m ≠ n ∧ s.tasks m = some t') := by
    intro m t' there
    rw [tasks] at there
    by_cases same : m = n
    · subst same
      rw [Function.update_self] at there
      exact Or.inl ⟨rfl, (Option.some.inj there).symm⟩
    · rw [Function.update_of_ne same] at there
      exact Or.inr ⟨same, there⟩
  constructor
  · intro m t' there holds
    rcases cases_ m t' there with ⟨rfl, rfl⟩ | ⟨other, there⟩
    · exact own holds
    · exact others m t' other there holds
  · rw [drain]
    exact draining
  · rw [drain, shutdown]
    exact inv.signalled
  · intro returned m t' there
    rw [drain] at returned
    rcases cases_ m t' there with ⟨rfl, rfl⟩ | ⟨_, there⟩
    · exact quiet returned
    · exact inv.quiet returned m t' there
  · intro m o p there
    rcases cases_ m _ there with ⟨_, same⟩ | ⟨_, there⟩
    · exact reads o p same.symm
    · exact inv.reads m o p there

omit [DecidableEq Hash] in
theorem Held.aside {s s' : Server Hash M} (inv : Held s) {n : ℕ} {t : Task Hash M}
    (tasks : s'.tasks = Function.update s.tasks n (some t)) (drain : s'.drain = s.drain)
    (shutdown : s'.shutdown = s.shutdown) (lock : s'.lock = s.lock) (idle : t.holds = false) :
    Held s' := by
  refine inv.move tasks drain shutdown ?_ ?_ ?_ ?_ ?_
  · intro m t' _ there holds
    rw [lock]
    exact inv.owner m t' there holds
  · intro holds
    rw [idle] at holds
    cases holds
  · rw [lock]
    exact inv.draining
  · intro _
    cases t with
    | running o p => cases idle
    | _ => rfl
  · rintro o p rfl
    cases idle

omit [DecidableEq Hash] in
theorem Held.unlock {s s' : Server Hash M} (inv : Held s) {n : ℕ} {t t' : Task Hash M}
    (there : s.tasks n = some t) (holds : t.holds = true)
    (tasks : s'.tasks = Function.update s.tasks n (some t')) (drain : s'.drain = s.drain)
    (shutdown : s'.shutdown = s.shutdown) (idle : t'.holds = false) : Held s' := by
  have mine := inv.owner n t there holds
  refine inv.move tasks drain shutdown ?_ ?_ ?_ ?_ ?_
  · intro m t₁ other found held
    have theirs := inv.owner m t₁ found held
    rw [mine] at theirs
    cases theirs
    exact absurd rfl other
  · intro held
    rw [idle] at held
    cases held
  · intro holding
    have theirs := inv.draining holding
    rw [mine] at theirs
    cases theirs
  · intro _
    cases t' with
    | running o p => cases idle
    | _ => rfl
  · rintro o p rfl
    cases idle

omit [DecidableEq Hash] in
theorem Held.advance {s s' : Server Hash M} (inv : Held s) {n : ℕ} {o : Operation Hash}
    {p p' : DaemonProgram Hash M Reply} (there : s.tasks n = some (.running o p))
    (tasks : s'.tasks = Function.update s.tasks n (some (.running o p')))
    (drain : s'.drain = s.drain) (shutdown : s'.shutdown = s.shutdown) (lock : s'.lock = s.lock)
    (reads : p.Still → p'.Still) : Held s' := by
  refine inv.move tasks drain shutdown ?_ ?_ ?_ ?_ ?_
  · intro m t _ found holds
    rw [lock]
    exact inv.owner m t found holds
  · intro _
    rw [lock]
    exact inv.owner n _ there rfl
  · rw [lock]
    exact inv.draining
  · intro returned
    have quiet := inv.quiet returned n _ there
    exact quiet
  · rintro _ _ ⟨⟩ reader
    exact reads (inv.reads n o p there reader)

/- One lemma for each action. -/

section

variable {s : Server Hash M}

theorem Held.arrive (inv : Held s) (n : ℕ) (o : Operation Hash) : Held (step P hmac config s (.arrive n o)) := by
  simp only [Daemon.step]
  split
  · exact inv.aside rfl rfl rfl rfl rfl
  · exact inv

theorem Held.checkShutdown (inv : Held s) (n : ℕ) : Held (step P hmac config s (.checkShutdown n)) := by
  simp only [Daemon.step]
  split
  · split
    · exact inv.aside rfl rfl rfl rfl rfl
    · exact inv.aside rfl rfl rfl rfl rfl
  · exact inv

theorem Held.tryCommitSlot (inv : Held s) (n : ℕ) : Held (step P hmac config s (.tryCommitSlot n)) := by
  simp only [Daemon.step]
  split
  · split
    · exact inv.aside rfl rfl rfl rfl rfl
    · exact inv.aside rfl rfl rfl rfl rfl
  · exact inv

theorem Held.acquire (inv : Held s) (n : ℕ) : Held (step P hmac config s (.acquire n)) := by
  simp only [Daemon.step]
  split
  · rename_i free
    refine inv.move rfl rfl rfl ?_ (fun _ => rfl) ?_ (fun _ => rfl) nofun
    · intro m t _ there holds
      have busy := inv.owner m t there holds
      rw [free] at busy
      cases busy
    · intro holding
      have busy := inv.draining holding
      rw [free] at busy
      cases busy
  · exact inv

theorem Held.recheck (inv : Held s) (n : ℕ) : Held (step P hmac config s (.recheck n)) := by
  simp only [Daemon.step]
  split
  · rename_i o there
    have mine := inv.owner n _ there rfl
    split
    · exact inv.unlock there rfl rfl rfl rfl rfl
    · rename_i passes
      refine inv.move rfl rfl rfl (fun m t _ => inv.owner m t) (fun _ => mine) inv.draining ?_ ?_
      · intro returned
        have signalled := inv.signalled (by rw [returned]; exact Drain.noConfusion)
        simpa [Task.writing, signalled] using passes
      · rintro _ _ ⟨⟩ reader
        exact Operation.respond_still P hmac config reader
  · exact inv

theorem Held.operate (inv : Held s) (n : ℕ) : Held (step P hmac config s (.operate n)) := by
  simp only [Daemon.step]
  split
  · rename_i o act next fault there
    exact inv.advance there rfl rfl rfl rfl (fun still => still.2.1 s.daemon)
  · exact inv

theorem Held.fault (inv : Held s) (n : ℕ) : Held (step P hmac config s (.fault n)) := by
  simp only [Daemon.step]
  split
  · rename_i o act next fault there
    exact inv.advance there rfl rfl rfl rfl (fun still => still.2.2)
  · exact inv

theorem Held.release (inv : Held s) (n : ℕ) : Held (step P hmac config s (.release n)) := by
  simp only [Daemon.step]
  split
  · rename_i o answer there
    exact inv.unlock there rfl rfl rfl rfl rfl
  · exact inv

theorem Held.leave (inv : Held s) (n : ℕ) : Held (step P hmac config s (.leave n)) := by
  simp only [Daemon.step]
  split
  · exact inv.aside rfl rfl rfl rfl rfl
  · exact inv

theorem Held.drain (inv : Held s) : Held (step P hmac config s .drain) := by
  simp only [Daemon.step]
  split
  · split
    · rename_i signalled
      exact ⟨inv.owner, nofun, fun _ => signalled, nofun, inv.reads⟩
    · exact inv
  · exact inv

theorem Held.drainAcquire (inv : Held s) : Held (step P hmac config s .drainAcquire) := by
  simp only [Daemon.step]
  split
  · rename_i waiting free
    refine ⟨?_, fun _ => rfl, fun _ => inv.signalled (by rw [waiting]; exact Drain.noConfusion), nofun, inv.reads⟩
    intro n t there holds
    have busy := inv.owner n t there holds
    rw [free] at busy
    cases busy
  · exact inv

theorem Held.drainReturn (inv : Held s) : Held (step P hmac config s .drainReturn) := by
  simp only [Daemon.step]
  split
  · rename_i holding
    have drains := inv.draining holding
    have free : ∀ n t, s.tasks n = some t → t.holds = false := by
      intro n t there
      by_contra holds
      have mine := inv.owner n t there (by simpa using holds)
      rw [drains] at mine
      cases mine
    refine ⟨?_, nofun, fun _ => inv.signalled (by rw [holding]; exact Drain.noConfusion), ?_, inv.reads⟩
    · intro n t there holds
      rw [free n t there] at holds
      cases holds
    · intro _ n t there
      have idle := free n t there
      cases t with
      | running o p => cases idle
      | _ => rfl
  · exact inv

theorem Held.background (inv : Held s) (b : AdapterProgram Hash M Unit) (work : FileTree Bytes) (memory : M) :
    Held (step P hmac config s (.background b work memory)) := by
  simp only [Daemon.step]
  split
  · exact inv
  · exact ⟨inv.owner, inv.draining, inv.signalled, inv.quiet, inv.reads⟩

theorem Held.step (inv : Held s) (a : Act Hash M) : Held (step P hmac config s a) := by
  cases a with
  | arrive n o => exact inv.arrive n o
  | checkShutdown n => exact inv.checkShutdown n
  | tryCommitSlot n => exact inv.tryCommitSlot n
  | acquire n => exact inv.acquire n
  | recheck n => exact inv.recheck n
  | operate n => exact inv.operate n
  | fault n => exact inv.fault n
  | release n => exact inv.release n
  | leave n => exact inv.leave n
  | cancel => exact ⟨inv.owner, inv.draining, fun _ => rfl, inv.quiet, inv.reads⟩
  | drain => exact inv.drain
  | drainAcquire => exact inv.drainAcquire
  | drainReturn => exact inv.drainReturn
  | background b work memory => exact inv.background b work memory

end

theorem Held.run {s : Server Hash M} (inv : Held s) (acts : List (Act Hash M)) :
    Held (run P hmac config acts s) := by
  induction acts generalizing s with
  | nil => exact inv
  | cons a acts ih => exact ih (inv.step a)

theorem returned_step {s : Server Hash M} (returned : s.drain = .returned) (a : Act Hash M) :
    (step P hmac config s a).drain = .returned := by
  cases a with
  | cancel => exact returned
  | drain => rw [step, returned]; exact returned
  | drainAcquire => rw [step, returned]; exact returned
  | drainReturn => rw [step, returned]; exact returned
  | _ =>
    simp only [step]
    repeat' split
    all_goals exact returned

theorem returned_run {s : Server Hash M} (returned : s.drain = .returned)
    (acts : List (Act Hash M)) : (run P hmac config acts s).drain = .returned := by
  induction acts generalizing s with
  | nil => exact returned
  | cons a acts ih => exact ih (returned_step returned a)

theorem Held.daemon_step {s : Server Hash M} (inv : Held s) (returned : s.drain = .returned)
    {a : Act Hash M} (served : ∀ b work memory, a ≠ .background b work memory) :
    (Daemon.step P hmac config s a).daemon = s.daemon := by
  cases a with
  | background b work memory => exact absurd rfl (served b work memory)
  | operate n =>
    simp only [Daemon.step]
    split
    · rename_i o act next fault there
      have quiet := inv.quiet returned n _ there
      obtain ⟨rfl, _⟩ := inv.reads n o _ there quiet
      rfl
    · rfl
  | _ =>
    simp only [Daemon.step]
    repeat' split
    all_goals rfl

/-- When the drain has returned no commit or rollback is under way, whatever came before and
whoever still waits for the lock, and no request writes any more. -/
theorem drained {s : Server Hash M} (start : Initial s) {acts : List (Act Hash M)}
    (returned : (run P hmac config acts s).drain = .returned) (more : List (Act Hash M)) :
    let later := run P hmac config (acts ++ more) s
    (∀ n t, later.tasks n = some t → t.writing = false) ∧
      ∀ a : Act Hash M, (∀ b work memory, a ≠ .background b work memory) →
        (step P hmac config later a).daemon = later.daemon := by
  intro later
  have inv : Held later := start.held.run (acts ++ more)
  have after : later.drain = .returned := by
    show (Runs.run (step P hmac config) (acts ++ more) s).drain = _
    rw [Runs.run_append]
    exact returned_run returned more
  exact ⟨inv.quiet after, fun a served => inv.daemon_step after served⟩

/-- A server that nobody has asked yet, with a queue of two. -/
def fresh (d : Daemon M) : Server Hash M where
  daemon := d
  tasks := fun _ => none
  shutdown := false
  commitSlots := 2
  lock := none
  drain := .idle
  acquired := []

omit [DecidableEq Hash] in
theorem fresh_initial (d : Daemon M) : Initial (fresh d : Server Hash M) :=
  ⟨fun _ => rfl, rfl, rfl, rfl⟩

/-- A commit waits in the queue when the signal comes, and the drain gets the lock first. -/
theorem drained_hello :
    let acts : List (Act Bytes Unit) := [.arrive 0 helloOperation, .checkShutdown 0, .tryCommitSlot 0,
      .cancel, .drain, .drainAcquire, .drainReturn]
    let later := run Platform.sample (fun _ m => m) quiet (acts ++ [.acquire 0, .recheck 0, .leave 0])
      (fresh Daemon.start)
    later.outcome 0 = some (.error shuttingDown) ∧
      ∀ a : Act Bytes Unit, (∀ b work memory, a ≠ .background b work memory) →
        (step Platform.sample (fun _ m => m) quiet later a).daemon = later.daemon := by
  intro acts later
  exact ⟨rfl, (drained (fresh_initial Daemon.start) rfl _).2⟩

/-- A request that comes when nobody else is there. -/
def serve (n : ℕ) (o : Operation Hash) (ops : ℕ) : List (Act Hash M) :=
  let queue : List (Act Hash M) := [.arrive n o, .checkShutdown n, .tryCommitSlot n, .acquire n]
  let begin_ : List (Act Hash M) := [.recheck n]
  let work : List (Act Hash M) := List.replicate ops (.operate n)
  let end_ : List (Act Hash M) := [.release n, .leave n]
  queue ++ (begin_ ++ (work ++ end_))

theorem run_operate {s : Server Hash M} {n : ℕ} {o : Operation Hash} (p : DaemonProgram Hash M Reply)
    (there : s.tasks n = some (.running o p)) :
    run P hmac config (List.replicate (p.ops s.daemon) (.operate n)) s =
      { s with daemon := (p.run s.daemon).2 }.put n (.running o (.done (p.run s.daemon).1)) := by
  induction p generalizing s with
  | done r =>
    have same : s.put n (.running o (.done r)) = s := by
      rw [Server.put, ← there, Function.update_eq_self]
    exact same.symm
  | op act next fault ih _ =>
    have stepped : step P hmac config s (.operate n) =
        { s with daemon := act s.daemon }.put n (.running o (next s.daemon)) := by
      rw [step, there]
    rw [Program.ops, List.replicate_succ, run, Runs.run, List.foldl_cons, stepped]
    refine (ih s.daemon (Function.update_self _ _ _)).trans ?_
    simp only [Server.put, Function.update_idem]
    rfl

/-- Nobody has the lock, waits for it, or shuts the daemon down. -/
structure Calm (s : Server Hash M) (n : ℕ) : Prop where
  absent : s.tasks n = none
  lock : s.lock = none
  shutdown : s.shutdown = false
  slots : 0 < s.commitSlots

theorem run_queue {s : Server Hash M} {n : ℕ} (calm : Calm s n) (o : Operation Hash) :
    run P hmac config [.arrive n o, .checkShutdown n, .tryCommitSlot n, .acquire n] s =
      { s with
        commitSlots := s.commitSlots - 1
        lock := some (.request n)
        acquired := s.acquired ++ [n] }.put n (.locked o) := by
  obtain ⟨slots, some_⟩ := Nat.exists_eq_succ_of_ne_zero calm.slots.ne'
  simp [run, Runs.run, step, Server.put, calm.absent, calm.lock, calm.shutdown, some_]

theorem run_serve {s : Server Hash M} {n : ℕ} {d : Daemon M} (calm : Calm s n)
    (here : s.daemon = d) (o : Operation Hash) :
    run P hmac config (serve n o ((o.respond P hmac config).ops d)) s =
      { s with
        daemon := ((o.respond P hmac config).run d).2
        acquired := s.acquired ++ [n] }.put n
          (.answered ((o.respond P hmac config).run d).1) := by
  subst here
  have begun : ∀ s' : Server Hash M, s'.shutdown = false → s'.tasks n = some (.locked o) →
      run P hmac config [.recheck n] s' = s'.put n (.running o (o.respond P hmac config)) := by
    intro s' on there
    simp [run, Runs.run, step, there, on]
  have ended : ∀ (s' : Server Hash M) answer, s'.tasks n = some (.running o (.done answer)) →
      run P hmac config [.release n, .leave n] s' =
        { s' with lock := none, commitSlots := s'.commitSlots + 1 }.put n (.answered answer) := by
    intro s' answer there
    simp [run, Runs.run, step, there, Server.put]
  let locked : Server Hash M :=
    { s with
      commitSlots := s.commitSlots - 1
      lock := some (.request n)
      acquired := s.acquired ++ [n] }.put n (.locked o)
  let running : Server Hash M := locked.put n (.running o (o.respond P hmac config))
  have operated : run P hmac config
      (List.replicate (Program.ops (o.respond P hmac config) running.daemon) (.operate n)) running = _ :=
    run_operate (o.respond P hmac config) (Function.update_self _ _ _)
  have positive : s.commitSlots - 1 + 1 = s.commitSlots := Nat.sub_add_cancel calm.slots
  rw [serve, run, Runs.run_append, Runs.run_append, Runs.run_append]
  show run P hmac config _ (run P hmac config _ (run P hmac config _ (run P hmac config _ s))) = _
  rw [run_queue calm, begun locked calm.shutdown (Function.update_self _ _ _)]
  show run P hmac config _ (run P hmac config
    (List.replicate (Program.ops (o.respond P hmac config) running.daemon) (.operate n)) running) = _
  rw [operated, ended _ _ (Function.update_self _ _ _)]
  simp [running, locked, Server.put, calm.lock, positive]

theorem along_serve {cond : Server Hash M → Act Hash M → Prop} {s : Server Hash M} {n : ℕ}
    (o : Operation Hash) (ops : ℕ)
    (others : ∀ a, (∀ m, a ≠ .recheck m) → (∀ m, a ≠ .fault m) → ∀ s, cond s a)
    (checked : cond (run P hmac config
      [.arrive n o, .checkShutdown n, .tryCommitSlot n, .acquire n] s) (.recheck n)) :
    Runs.Along (step P hmac config) cond (serve n o ops) s := by
  refine Runs.Along.append (Runs.Along.of_always ?_ s) (Runs.Along.append ⟨checked, trivial⟩
    (Runs.Along.of_always ?_ _))
  · intro a mem
    apply others a
    · rintro m rfl
      simp at mem
    · rintro m rfl
      simp at mem
  · intro a mem
    apply others a
    · rintro m rfl
      simp at mem
    · rintro m rfl
      simp at mem

end Daemon

end GitAgentic
