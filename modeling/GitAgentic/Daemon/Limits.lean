import GitAgentic.Data.Runs
import GitAgentic.Data.Tally
import GitAgentic.Data.TokenBucket

/-! The limits on the daemon's socket: how many connections are open, in all and for one
user, and how many requests of one user are granted in a time. -/
namespace GitAgentic

/-- A user id is a `u32`. -/
abbrev Uid := Fin (2 ^ 32)

structure LimitsConfig where
  maxConnections : Nat
  maxConnectionsPerUid : Nat

/-- Why a connection was refused. -/
inductive ConnRejection where
  | globalCap (current cap : Nat)
  | perUidCap (uid : Uid) (current cap : Nat)
  deriving DecidableEq

/-- A counter grows only below its cap, which is a `usize`, so it does not wrap. -/
structure GateCounts where
  global : Nat
  perUid : BTreeMap Uid Nat
  deriving DecidableEq

def GateCounts.default : GateCounts := ⟨0, BTreeMap.empty⟩

structure ConnGate where
  maxGlobal : Nat
  maxPerUid : Nat

def ConnGate.new (cfg : LimitsConfig) : ConnGate := ⟨cfg.maxConnections, cfg.maxConnectionsPerUid⟩

/-- The guard releases its slots when it is dropped. -/
structure ConnGuard where
  uid : Uid
  deriving DecidableEq

def ConnGate.tryAdmit (gate : ConnGate) (counts : GateCounts) (uid : Uid) :
    GateCounts × Except ConnRejection ConnGuard :=
  if counts.global ≥ gate.maxGlobal then
    (counts, .error (.globalCap counts.global gate.maxGlobal))
  else
    let uidCount := (counts.perUid.get? uid).getD 0
    if uidCount ≥ gate.maxPerUid then
      (counts, .error (.perUidCap uid uidCount gate.maxPerUid))
    else
      (⟨counts.global + 1, counts.perUid.insert uid (uidCount + 1)⟩, .ok ⟨uid⟩)

/-- The decrements saturate at zero. -/
def ConnGuard.drop (guard : ConnGuard) (counts : GateCounts) : GateCounts where
  global := counts.global - 1
  perUid :=
    match counts.perUid.get? guard.uid with
    | some n =>
      if n - 1 = 0 then counts.perUid.without [guard.uid]
      else counts.perUid.insert guard.uid (n - 1)
    | none => counts.perUid

namespace ConnGate

/-- The counters and the guards that have not been dropped. -/
structure Connections where
  counts : GateCounts
  live : List ConnGuard

def Connections.start : Connections := ⟨.default, []⟩

def Connections.liveOf (s : Connections) (uid : Uid) : Nat := (s.live.map ConnGuard.uid).count uid

inductive Event where
  | tryAdmit (uid : Uid)
  | drop (i : Nat)

/-- The guard at a place of the list of those that live may be dropped at any time; where
there is none, nothing happens. -/
def step (gate : ConnGate) (s : Connections) : Event → Connections
  | .tryAdmit uid =>
    match gate.tryAdmit s.counts uid with
    | (counts, .ok guard) => ⟨counts, s.live ++ [guard]⟩
    | (counts, .error _) => ⟨counts, s.live⟩
  | .drop i =>
    match s.live[i]? with
    | some guard => ⟨guard.drop s.counts, s.live.eraseIdx i⟩
    | none => s

/-- What the counters are at all times, and whom they let in. -/
structure Exact (gate : ConnGate) (s : Connections) : Prop where
  global : s.counts.global = s.live.length
  total : s.counts.global = (s.counts.perUid.entries.map Prod.snd).sum
  perUid : ∀ uid, s.counts.perUid.get? uid = if s.liveOf uid = 0 then none else some (s.liveOf uid)
  globalCap : s.counts.global ≤ gate.maxGlobal
  perUidCap : ∀ uid, s.liveOf uid ≤ gate.maxPerUid
  admits : ∀ uid, (∃ guard, (gate.tryAdmit s.counts uid).2 = .ok guard) ↔
    s.live.length < gate.maxGlobal ∧ s.liveOf uid < gate.maxPerUid
  refuses : ∀ uid rejection, (gate.tryAdmit s.counts uid).2 = .error rejection →
    (gate.tryAdmit s.counts uid).1 = s.counts

/-- The invariant: one counter is the number of guards, the other counts their users. -/
structure Counted (gate : ConnGate) (s : Connections) : Prop where
  global : s.counts.global = s.live.length
  tally : Tally s.counts.perUid (s.live.map ConnGuard.uid)
  globalCap : s.live.length ≤ gate.maxGlobal
  perUidCap : ∀ uid, s.liveOf uid ≤ gate.maxPerUid

variable {gate : ConnGate} {s : Connections}

theorem counted_start : Counted gate .start where
  global := rfl
  tally := Tally.empty
  globalCap := Nat.zero_le _
  perUidCap := fun _ => Nat.zero_le _

theorem tryAdmit_cases (h : Counted gate s) (uid : Uid) :
    (gate.maxGlobal ≤ s.live.length ∧ ∃ rejection,
        gate.tryAdmit s.counts uid = (s.counts, .error rejection)) ∨
      (gate.maxPerUid ≤ s.liveOf uid ∧ ∃ rejection,
        gate.tryAdmit s.counts uid = (s.counts, .error rejection)) ∨
      (s.live.length < gate.maxGlobal ∧ s.liveOf uid < gate.maxPerUid ∧
        gate.tryAdmit s.counts uid =
          (⟨s.counts.global + 1, s.counts.perUid.insert uid (s.liveOf uid + 1)⟩, .ok ⟨uid⟩)) := by
  have counted : (s.counts.perUid.get? uid).getD 0 = s.liveOf uid := h.tally.getD uid
  unfold tryAdmit
  rw [counted, h.global]
  by_cases full : s.live.length ≥ gate.maxGlobal
  · rw [if_pos full]
    exact .inl ⟨full, _, rfl⟩
  rw [if_neg full]
  by_cases many : s.liveOf uid ≥ gate.maxPerUid
  · exact .inr (.inl ⟨many, _, if_pos many⟩)
  · exact .inr (.inr ⟨by omega, by omega, if_neg many⟩)

theorem Counted.exact (h : Counted gate s) : Exact gate s where
  global := h.global
  total := by
    rw [h.tally.sum, h.global, List.length_map]
  perUid := by
    intro uid
    rw [h.tally uid]
    by_cases mem : uid ∈ s.live.map ConnGuard.uid
    · have some : s.liveOf uid ≠ 0 := fun none => List.count_eq_zero.mp none mem
      rw [if_pos mem, if_neg some]
      rfl
    · have none : s.liveOf uid = 0 := List.count_eq_zero.mpr mem
      rw [if_neg mem, if_pos none]
  globalCap := h.global.trans_le h.globalCap
  perUidCap := h.perUidCap
  admits := by
    intro uid
    rcases tryAdmit_cases h uid with ⟨full, _, refused⟩ | ⟨many, _, refused⟩ | ⟨room, own, admitted⟩
    · rw [refused]
      exact ⟨nofun, fun room => absurd room.1 (by omega)⟩
    · rw [refused]
      exact ⟨nofun, fun room => absurd room.2 (by omega)⟩
    · rw [admitted]
      exact ⟨fun _ => ⟨room, own⟩, fun _ => ⟨_, rfl⟩⟩
  refuses := by
    intro uid rejection error
    rcases tryAdmit_cases h uid with ⟨_, _, refused⟩ | ⟨_, _, refused⟩ | ⟨_, _, admitted⟩
    · rw [refused]
    · rw [refused]
    · rw [admitted] at error
      cases error

theorem tally_drop {guard : ConnGuard} {counts : GateCounts} {uids : List Uid}
    (t : Tally counts.perUid (guard.uid :: uids)) : Tally (guard.drop counts).perUid uids := by
  have held : counts.perUid.get? guard.uid = some (uids.count guard.uid + 1) := by
    rw [t guard.uid, if_pos List.mem_cons_self, List.count_cons_self]
  simp only [ConnGuard.drop, held, Nat.add_sub_cancel]
  by_cases more : guard.uid ∈ uids
  · rw [if_neg (fun none => List.count_eq_zero.mp none more)]
    exact t.of_insert more
  · rw [if_pos (List.count_eq_zero.mpr more)]
    exact t.of_without more

theorem counted_step (h : Counted gate s) (event : Event) : Counted gate (gate.step s event) := by
  cases event with
  | tryAdmit uid =>
    rcases tryAdmit_cases h uid with ⟨_, _, refused⟩ | ⟨_, _, refused⟩ | ⟨room, own, admitted⟩
    · simp only [step, refused]
      exact h
    · simp only [step, refused]
      exact h
    · simp only [step, admitted]
      have order : (uid :: s.live.map ConnGuard.uid).Perm
          ((s.live ++ [(⟨uid⟩ : ConnGuard)]).map ConnGuard.uid) := by
        rw [List.map_append]
        exact (List.perm_append_singleton uid _).symm
      refine ⟨?_, (h.tally.cons uid).perm order, ?_, ?_⟩
      · rw [h.global, List.length_append]
        rfl
      · rw [List.length_append]
        exact room
      · intro other
        have kept := h.perUidCap other
        rw [Connections.liveOf, ← order.count_eq]
        by_cases same : uid = other
        · subst same
          rw [List.count_cons_self]
          exact own
        · rw [List.count_cons_of_ne same]
          exact kept
  | drop i =>
    cases found : s.live[i]? with
    | none =>
      simp only [step, found]
      exact h
    | some guard =>
      obtain ⟨inside, rfl⟩ := List.getElem?_eq_some_iff.mp found
      simp only [step, found]
      have order : (s.live[i].uid :: (s.live.eraseIdx i).map ConnGuard.uid).Perm
          (s.live.map ConnGuard.uid) := (List.getElem_cons_eraseIdx_perm inside).map ConnGuard.uid
      have shorter := List.length_eraseIdx_of_lt inside
      refine ⟨?_, tally_drop (h.tally.perm order.symm), ?_, ?_⟩
      · simp only [ConnGuard.drop, h.global, shorter]
      · have cap := h.globalCap
        simp only [shorter]
        omega
      · intro uid
        have fewer : ((s.live.eraseIdx i).map ConnGuard.uid).count uid ≤ s.liveOf uid := by
          rw [Connections.liveOf, ← order.count_eq]
          exact List.count_le_count_cons
        exact fewer.trans (h.perUidCap uid)

theorem accounting_exact (gate : ConnGate) (events : List Event) :
    Exact gate (Runs.run gate.step events .start) := by
  have always : Runs.Along gate.step (fun _ _ => True) events .start :=
    Runs.Along.of_always (fun _ _ _ => trivial) _
  have keeps : ∀ s event, Counted gate s → True → Counted gate (gate.step s event) :=
    fun _ event h _ => counted_step h event
  exact (Runs.Along.invariant keeps always counted_start).exact

end ConnGate

abbrev Bucket := TokenBucket Rat

structure RateLimiter where
  ratePerSec : Rat
  burst : Rat
  buckets : BTreeMap Uid Bucket

namespace RateLimiter

/-- The burst is twice the rate. -/
def new (ratePerUid : Nat) : RateLimiter := ⟨ratePerUid, ratePerUid * 2, BTreeMap.empty⟩

def tryConsume (l : RateLimiter) (uid : Uid) (now : Rat) : Bool × RateLimiter :=
  let b := (l.buckets.get? uid).getD ⟨l.burst, now⟩
  let elapsed := max 0 (now - b.lastRefill)
  let tokens := min (b.tokens + elapsed * l.ratePerSec) l.burst
  if tokens ≥ 1 then (true, { l with buckets := l.buckets.insert uid ⟨tokens - 1, now⟩ })
  else (false, { l with buckets := l.buckets.insert uid ⟨tokens, now⟩ })

structure Call where
  uid : Uid
  now : Rat

def answers (l : RateLimiter) : List Call → List Bool
  | [] => []
  | call :: calls =>
    let (answer, l') := l.tryConsume call.uid call.now
    answer :: answers l' calls

def after (l : RateLimiter) (calls : List Call) : RateLimiter :=
  Runs.run (fun l (call : Call) => (l.tryConsume call.uid call.now).2) calls l

/-- The calls of one user with their answers. -/
def answeredOf (l : RateLimiter) (uid : Uid) (calls : List Call) : List (Call × Bool) :=
  (calls.zip (l.answers calls)).filter (fun e => e.1.uid = uid)

/-- How many calls of the user were granted from `t₁` to `t₂`. -/
def grantedOf (l : RateLimiter) (uid : Uid) (t₁ t₂ : Rat) (calls : List Call) : Nat :=
  (l.answeredOf uid calls).countP (fun e => decide (t₁ ≤ e.1.now ∧ e.1.now ≤ t₂ ∧ e.2 = true))

def timesOf (uid : Uid) (calls : List Call) : List Rat :=
  (calls.filter (fun call => call.uid = uid)).map Call.now

variable {l : RateLimiter}

def bucketOf (l : RateLimiter) (uid : Uid) (now : Rat) : Bucket :=
  (l.buckets.get? uid).getD (TokenBucket.full l.burst now)

theorem tryConsume_eq (uid : Uid) (now : Rat) :
    l.tryConsume uid now =
      (((l.bucketOf uid now).take l.ratePerSec l.burst now).1, { l with
        buckets := l.buckets.insert uid ((l.bucketOf uid now).take l.ratePerSec l.burst now).2 }) := by
  by_cases enough : 1 ≤ ((l.bucketOf uid now).refill l.ratePerSec l.burst now).tokens
  · have taken : (l.bucketOf uid now).take l.ratePerSec l.burst now = (true, _) := if_pos enough
    rw [taken]
    exact if_pos enough
  · have left : (l.bucketOf uid now).take l.ratePerSec l.burst now = (false, _) := if_neg enough
    rw [left]
    exact if_neg enough

theorem answeredOf_eq (uid : Uid) (calls : List Call) :
    (l.answeredOf uid calls).map (fun e => (e.1.now, e.2)) =
      (timesOf uid calls).zip
        (TokenBucket.answers l.ratePerSec l.burst (l.buckets.get? uid) (timesOf uid calls)) := by
  induction calls generalizing l with
  | nil => rfl
  | cons call calls ih =>
    have next := tryConsume_eq (l := l) call.uid call.now
    have rest := ih (l := (l.tryConsume call.uid call.now).2)
    rw [next] at rest
    simp only [answeredOf, answers, next, List.zip_cons_cons]
    by_cases own : call.uid = uid
    · subst own
      rw [List.filter_cons_of_pos (by simp), List.map_cons, timesOf,
        List.filter_cons_of_pos (by simp), List.map_cons]
      simp only [BTreeMap.get?_insert, if_true] at rest
      exact congrArg (List.cons _) rest
    · rw [List.filter_cons_of_neg (by simpa using own), timesOf,
        List.filter_cons_of_neg (by simpa using own)]
      simp only [BTreeMap.get?_insert, if_neg own] at rest
      exact rest

theorem grantedOf_eq (uid : Uid) (t₁ t₂ : Rat) (calls : List Call) :
    l.grantedOf uid t₁ t₂ calls =
      TokenBucket.granted l.ratePerSec l.burst t₁ t₂ (l.buckets.get? uid) (timesOf uid calls) := by
  rw [TokenBucket.granted, ← answeredOf_eq, List.countP_map]
  rfl

theorem answersOf_eq (uid : Uid) (calls : List Call) :
    (l.answeredOf uid calls).map Prod.snd =
      TokenBucket.answers l.ratePerSec l.burst (l.buckets.get? uid) (timesOf uid calls) := by
  have paired := congrArg (List.map Prod.snd) (answeredOf_eq (l := l) uid calls)
  rw [List.map_snd_zip (TokenBucket.length_answers _ _).le, List.map_map] at paired
  exact paired

/-- The limiter's rate, and every bucket within bounds. -/
structure Bounded (rate : Nat) (l : RateLimiter) : Prop where
  ratePerSec : l.ratePerSec = rate
  burst : l.burst = rate * 2
  within : ∀ uid b, l.buckets.get? uid = some b → b.Within ((rate : Rat) * 2)

theorem bounded_new (rate : Nat) : (new rate).Bounded rate where
  ratePerSec := rfl
  burst := rfl
  within := nofun

theorem bounded_tryConsume {rate : Nat} (h : l.Bounded rate) (call : Call) :
    (l.tryConsume call.uid call.now).2.Bounded rate := by
  have flows : (0 : Rat) ≤ rate := Nat.cast_nonneg rate
  have positive : (0 : Rat) ≤ rate * 2 := by linarith
  rw [tryConsume_eq]
  refine ⟨h.ratePerSec, h.burst, ?_⟩
  intro uid b found
  rw [BTreeMap.get?_insert] at found
  by_cases own : call.uid = uid
  · rw [if_pos own, h.ratePerSec, h.burst] at found
    cases found
    refine TokenBucket.take_within flows positive ?_ call.now
    unfold bucketOf
    cases held : l.buckets.get? call.uid with
    | none =>
      rw [h.burst]
      exact TokenBucket.full_within positive call.now
    | some b => exact h.within call.uid b held
  · rw [if_neg own] at found
    exact h.within uid b found

theorem bounded_after (rate : Nat) (calls : List Call) : ((new rate).after calls).Bounded rate := by
  have always : Runs.Along (fun l (call : Call) => (l.tryConsume call.uid call.now).2)
      (fun _ _ => True) calls (new rate) := Runs.Along.of_always (fun _ _ _ => trivial) _
  have keeps : ∀ (l : RateLimiter) (call : Call), l.Bounded rate → True →
      (l.tryConsume call.uid call.now).2.Bounded rate := fun _ call h _ => bounded_tryConsume h call
  exact always.invariant keeps (bounded_new rate)

/-- Each user's calls come in order of time. -/
def Ordered (calls : List Call) : Prop :=
  calls.Pairwise (fun a b => a.uid = b.uid → a.now ≤ b.now)

theorem timesOf_ordered {calls : List Call} (ordered : Ordered calls) (uid : Uid) :
    (timesOf uid calls).Pairwise (· ≤ ·) := by
  refine List.pairwise_map.mpr ((List.pairwise_filter.mpr ?_))
  refine ordered.imp ?_
  intro a b later own same
  have first : a.uid = uid := by simpa using own
  have second : b.uid = uid := by simpa using same
  exact later (first.trans second.symm)

theorem windows_bounded (rate : Nat) {calls : List Call} (ordered : Ordered calls) (uid : Uid) :
    (∀ t₁ t₂ : Rat, t₁ ≤ t₂ →
      ((new rate).grantedOf uid t₁ t₂ calls : Rat) ≤ 2 * rate + rate * (t₂ - t₁)) ∧
      (∀ b, ((new rate).after calls).buckets.get? uid = some b →
        0 ≤ b.tokens ∧ b.tokens ≤ 2 * rate) ∧
      ∀ others : List Call,
        others.filter (fun call => call.uid = uid) = calls.filter (fun call => call.uid = uid) →
        ((new rate).answeredOf uid others).map Prod.snd =
          ((new rate).answeredOf uid calls).map Prod.snd := by
  refine ⟨?_, ?_, ?_⟩
  · intro t₁ t₂ window
    have flows : (0 : Rat) ≤ rate := Nat.cast_nonneg rate
    have positive : (0 : Rat) ≤ rate * 2 := by linarith
    have bound : (TokenBucket.granted (rate : Rat) (rate * 2) t₁ t₂ none (timesOf uid calls) : Rat) ≤
        rate * 2 + rate * (t₂ - t₁) :=
      TokenBucket.granted_window flows positive nofun (timesOf_ordered ordered uid) window
    rw [grantedOf_eq]
    exact bound.trans (by linarith)
  · intro b found
    have within := (bounded_after rate calls).within uid b found
    exact ⟨within.nonneg, by linarith [within.le]⟩
  · intro others same
    rw [answersOf_eq, answersOf_eq, timesOf, timesOf, same]

theorem windows_bounded_second :
    ((new 1).grantedOf 7 0 1 [⟨7, 0⟩, ⟨8, 0⟩, ⟨7, 1⟩] : Rat) ≤
      2 * (1 : Nat) + (1 : Nat) * (1 - 0) := by
  have ordered : Ordered [⟨7, 0⟩, ⟨8, 0⟩, ⟨7, 1⟩] := by simp [Ordered]
  exact (windows_bounded 1 ordered 7).1 0 1 (by norm_num)

end RateLimiter

end GitAgentic
