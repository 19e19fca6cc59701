import Mathlib

/-! A token bucket over an ordered field: it fills at a fixed rate up to a fixed size, and
a request is granted when it holds a token. Over any stretch of time the grants are bounded
by the size and by what flows in meanwhile. -/

variable {K : Type} [Field K] [LinearOrder K] [IsStrictOrderedRing K]

structure TokenBucket (K : Type) where
  tokens : K
  lastRefill : K

namespace TokenBucket

section

variable (rate burst : K)

def full (now : K) : TokenBucket K := ⟨burst, now⟩

def refill (b : TokenBucket K) (now : K) : TokenBucket K :=
  ⟨min (b.tokens + max 0 (now - b.lastRefill) * rate) burst, now⟩

def take (b : TokenBucket K) (now : K) : Bool × TokenBucket K :=
  let filled := b.refill rate burst now
  if 1 ≤ filled.tokens then (true, ⟨filled.tokens - 1, now⟩) else (false, filled)

def answers : Option (TokenBucket K) → List K → List Bool
  | _, [] => []
  | b, now :: rest =>
    let taken := (b.getD (full burst now)).take rate burst now
    taken.1 :: answers (some taken.2) rest

/-- The requests granted from `t₁` to `t₂`. -/
def granted (t₁ t₂ : K) (b : Option (TokenBucket K)) (times : List K) : Nat :=
  (times.zip (answers rate burst b times)).countP
    (fun e => decide (t₁ ≤ e.1 ∧ e.1 ≤ t₂ ∧ e.2 = true))

structure Within (b : TokenBucket K) : Prop where
  nonneg : 0 ≤ b.tokens
  le : b.tokens ≤ burst

end

variable {rate burst t₁ t₂ : K} {b : TokenBucket K} {times : List K}

omit [IsStrictOrderedRing K] in
theorem full_within (positive : 0 ≤ burst) (now : K) : (full burst now).Within burst :=
  ⟨positive, le_rfl⟩

theorem refill_within (flows : 0 ≤ rate) (positive : 0 ≤ burst) (h : b.Within burst) (now : K) :
    (b.refill rate burst now).Within burst where
  nonneg := by
    have inflow : 0 ≤ max 0 (now - b.lastRefill) * rate := mul_nonneg (le_max_left 0 _) flows
    exact le_min (add_nonneg h.nonneg inflow) positive
  le := min_le_right _ _

omit [IsStrictOrderedRing K] in
@[simp] theorem take_lastRefill (now : K) : (b.take rate burst now).2.lastRefill = now := by
  unfold take
  by_cases enough : 1 ≤ (b.refill rate burst now).tokens
  · simp [enough]
  · simp only [enough, if_false]
    rfl

omit [IsStrictOrderedRing K] in
theorem take_tokens (rate burst : K) (b : TokenBucket K) (now : K) :
    (b.take rate burst now).2.tokens + (if (b.take rate burst now).1 = true then 1 else 0) =
      (b.refill rate burst now).tokens := by
  unfold take
  by_cases enough : 1 ≤ (b.refill rate burst now).tokens
  · simp [enough]
  · simp [enough]

theorem take_within (flows : 0 ≤ rate) (positive : 0 ≤ burst) (h : b.Within burst) (now : K) :
    (b.take rate burst now).2.Within burst := by
  have filled := refill_within flows positive h now
  unfold take
  by_cases enough : 1 ≤ (b.refill rate burst now).tokens
  · simp only [enough, if_true]
    exact ⟨by linarith, by linarith [filled.le]⟩
  · simp only [enough, if_false]
    exact filled

theorem refill_le (rate burst : K) {now : K} (later : b.lastRefill ≤ now) :
    (b.refill rate burst now).tokens ≤ b.tokens + rate * (now - b.lastRefill) := by
  have elapsed : max 0 (now - b.lastRefill) = now - b.lastRefill := max_eq_right (by linarith)
  have inflow : (b.refill rate burst now).tokens ≤ b.tokens + max 0 (now - b.lastRefill) * rate :=
    min_le_left _ _
  rw [elapsed, mul_comm] at inflow
  exact inflow

omit [IsStrictOrderedRing K] in
theorem length_answers (found : Option (TokenBucket K)) (times : List K) :
    (answers rate burst found times).length = times.length := by
  induction times generalizing found with
  | nil => rfl
  | cons now times ih => rw [answers, List.length_cons, List.length_cons, ih]

omit [IsStrictOrderedRing K] in
theorem granted_cons (t₁ t₂ : K) (found : Option (TokenBucket K)) (now : K) (times : List K) :
    granted rate burst t₁ t₂ found (now :: times) =
      granted rate burst t₁ t₂ (some ((found.getD (full burst now)).take rate burst now).2) times +
        if t₁ ≤ now ∧ now ≤ t₂ ∧ ((found.getD (full burst now)).take rate burst now).1 = true
          then 1 else 0 := by
  unfold granted
  rw [answers, List.zip_cons_cons, List.countP_cons]
  simp only [decide_eq_true_eq]

omit [IsStrictOrderedRing K] in
theorem granted_of_later (late : ∀ t ∈ times, t₂ < t) (found : Option (TokenBucket K)) :
    granted rate burst t₁ t₂ found times = 0 := by
  refine List.countP_eq_zero.mpr ?_
  rintro ⟨t, answer⟩ mem
  have after := late t (List.of_mem_zip mem).1
  simp [after.not_ge]

omit [Field K] [IsStrictOrderedRing K] in
theorem all_later {now : K} (outside : t₂ < now) (ordered : (now :: times).Pairwise (· ≤ ·)) :
    ∀ t ∈ now :: times, t₂ < t := by
  intro t mem
  rcases List.mem_cons.mp mem with rfl | mem
  · exact outside
  · exact outside.trans_le ((List.pairwise_cons.mp ordered).1 t mem)

theorem granted_cons_le (rate burst t₁ t₂ : K) (found : Option (TokenBucket K)) (now : K) (times : List K) :
    (granted rate burst t₁ t₂ found (now :: times) : K) ≤
      granted rate burst t₁ t₂ (some ((found.getD (full burst now)).take rate burst now).2) times +
        if ((found.getD (full burst now)).take rate burst now).1 = true then 1 else 0 := by
  rw [granted_cons, Nat.cast_add]
  refine add_le_add_right ?_ _
  by_cases ok : ((found.getD (full burst now)).take rate burst now).1 = true
  · by_cases counted : t₁ ≤ now ∧ now ≤ t₂
    · simp [ok, counted]
    · simp [ok, counted]
  · simp [ok]

theorem granted_le (flows : 0 ≤ rate) (positive : 0 ≤ burst) (h : b.Within burst)
    (ordered : times.Pairwise (· ≤ ·)) (later : ∀ t ∈ times, b.lastRefill ≤ t) (ends : b.lastRefill ≤ t₂) :
    (granted rate burst t₁ t₂ (some b) times : K) ≤ b.tokens + rate * (t₂ - b.lastRefill) := by
  induction times generalizing b with
  | nil =>
    have inflow : 0 ≤ rate * (t₂ - b.lastRefill) := mul_nonneg flows (by linarith)
    have holds := h.nonneg
    simp only [granted, List.zip_nil_left, List.countP_nil, Nat.cast_zero]
    linarith
  | cons now times ih =>
    obtain ⟨first, rest⟩ := List.pairwise_cons.mp ordered
    have due : b.lastRefill ≤ now := later now List.mem_cons_self
    by_cases outside : t₂ < now
    · have inflow : 0 ≤ rate * (t₂ - b.lastRefill) := mul_nonneg flows (by linarith)
      have holds := h.nonneg
      rw [granted_of_later (all_later outside ordered), Nat.cast_zero]
      linarith
    · have inside : now ≤ t₂ := not_lt.mp outside
      have tail := ih (take_within flows positive h now) rest (by simpa using first)
        (by simpa using inside)
      rw [take_lastRefill] at tail
      have paid := take_tokens rate burst b now
      have filled := refill_le rate burst due
      have flow : rate * (now - b.lastRefill) + rate * (t₂ - now) = rate * (t₂ - b.lastRefill) := by ring
      have counted := granted_cons_le rate burst t₁ t₂ (some b) now times
      rw [Option.getD_some] at counted
      linarith

theorem granted_window (flows : 0 ≤ rate) (positive : 0 ≤ burst) {found : Option (TokenBucket K)}
    (h : ∀ b, found = some b → b.Within burst) (ordered : times.Pairwise (· ≤ ·))
    (window : t₁ ≤ t₂) :
    (granted rate burst t₁ t₂ found times : K) ≤ burst + rate * (t₂ - t₁) := by
  induction times generalizing found with
  | nil =>
    have inflow : 0 ≤ rate * (t₂ - t₁) := mul_nonneg flows (by linarith)
    simp only [granted, List.zip_nil_left, List.countP_nil, Nat.cast_zero]
    linarith
  | cons now times ih =>
    obtain ⟨first, rest⟩ := List.pairwise_cons.mp ordered
    have start : (found.getD (full burst now)).Within burst := by
      cases found with
      | none => exact full_within positive now
      | some b => exact h b rfl
    have next := take_within flows positive start now
    by_cases before : now < t₁
    · have tail : (granted rate burst t₁ t₂
          (some ((found.getD (full burst now)).take rate burst now).2) times : K) ≤
          burst + rate * (t₂ - t₁) := ih (by rintro _ ⟨⟩; exact next) rest
      rw [granted_cons, if_neg (fun counted => before.not_ge counted.1), Nat.add_zero]
      exact tail
    by_cases outside : t₂ < now
    · have inflow : 0 ≤ rate * (t₂ - t₁) := mul_nonneg flows (by linarith)
      rw [granted_of_later (all_later outside ordered), Nat.cast_zero]
      linarith
    · -- The first request of the window finds at most a full bucket.
      have ends : ((found.getD (full burst now)).take rate burst now).2.lastRefill ≤ t₂ := by
        simpa using not_lt.mp outside
      have tail : (granted rate burst t₁ t₂
          (some ((found.getD (full burst now)).take rate burst now).2) times : K) ≤ _ :=
        granted_le flows positive next rest (by simpa using first) ends
      rw [take_lastRefill] at tail
      have paid := take_tokens rate burst (found.getD (full burst now)) now
      have filled := (refill_within flows positive start now).le
      have shorter : rate * (t₂ - now) ≤ rate * (t₂ - t₁) :=
        mul_le_mul_of_nonneg_left (by linarith) flows
      have counted := granted_cons_le rate burst t₁ t₂ found now times
      linarith

end TokenBucket
