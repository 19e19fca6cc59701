import Mathlib

/-! The maximal runs of the elements of a list that have a property, and one pass that
collects them. -/

abbrev RunPlace := Nat × Nat

/-- A maximal run: all its elements have the property, and those next to it have not. -/
structure IsMaximalRun {α : Type} (p : α → Bool) (xs : List α) (start len : Nat) : Prop where
  nonempty : 0 < len
  inside : start + len ≤ xs.length
  holds : ∀ i a, start ≤ i → i < start + len → xs[i]? = some a → p a = true
  before : ∀ a, 0 < start → xs[start - 1]? = some a → p a = false
  after : ∀ a, xs[start + len]? = some a → p a = false

namespace MaximalRuns

variable {α : Type} (p : α → Bool)

def closed (i : Nat) (runStart : Option Nat) : List RunPlace :=
  runStart.toList.map (fun start => (start, i - start))

/-- The pass over what is left of the list: the place in the list, and where the open run
started. -/
def collect : Nat → Option Nat → List α → List RunPlace
  | i, runStart, [] => closed i runStart
  | i, runStart, a :: rest =>
    if p a then collect (i + 1) (some (runStart.getD i)) rest
    else closed i runStart ++ collect (i + 1) none rest

/-- What the pass knows at a place: an open run began before it, after an element without
the property; with no run open, the element before it is such a one. -/
structure Open (xs : List α) (i : Nat) (runStart : Option Nat) : Prop where
  started : ∀ start, runStart = some start → start < i
  holds : ∀ start j a, runStart = some start → start ≤ j → j < i → xs[j]? = some a → p a = true
  before : ∀ a, 0 < runStart.getD i → xs[runStart.getD i - 1]? = some a → p a = false

variable {p} {xs : List α} {i start len : Nat}

theorem open_start : Open p xs 0 none where
  started := nofun
  holds := nofun
  before := fun _ positive => absurd positive (Nat.lt_irrefl 0)

theorem Open.extend {runStart : Option Nat} {a : α} (h : Open p xs i runStart) (here : xs[i]? = some a)
    (holds : p a = true) : Open p xs (i + 1) (some (runStart.getD i)) where
  started := by
    rintro start ⟨⟩
    cases runStart with
    | none => exact Nat.lt_succ_self i
    | some start => exact Nat.lt_succ_of_lt (h.started start rfl)
  holds := by
    rintro start j b ⟨⟩ above below found
    rcases Nat.lt_succ_iff_lt_or_eq.mp below with earlier | rfl
    · cases runStart with
      | none => exact absurd above (Nat.not_le.mpr earlier)
      | some start => exact h.holds start j b rfl above earlier found
    · rw [here] at found
      cases found
      exact holds
  before := h.before

theorem open_after {a : α} (here : xs[i]? = some a) (fails : p a = false) :
    Open p xs (i + 1) none where
  started := nofun
  holds := nofun
  before := by
    intro b _ found
    rw [Option.getD_none, Nat.add_sub_cancel, here] at found
    cases found
    exact fails

theorem Open.starts {s : Nat} (h : Open p xs i (some s)) (bound : i ≤ xs.length)
    (run : IsMaximalRun p xs start len) (above : s ≤ start) (below : start < i) :
    start = s ∧ i ≤ s + len := by
  have within : ∀ j, s ≤ j → j < i → ∃ a, xs[j]? = some a ∧ p a = true := by
    intro j above below
    have inside : j < xs.length := Nat.lt_of_lt_of_le below bound
    exact ⟨xs[j], List.getElem?_eq_getElem inside,
      h.holds s j xs[j] rfl above below (List.getElem?_eq_getElem inside)⟩
  have same : start = s := by
    by_contra other
    obtain ⟨a, found, holds⟩ := within (start - 1) (by omega) (by omega)
    rw [run.before a (by omega) found] at holds
    cases holds
  subst same
  refine ⟨rfl, ?_⟩
  by_contra short
  obtain ⟨a, found, holds⟩ := within (start + len) (by omega) (by omega)
  rw [run.after a found] at holds
  cases holds

theorem Open.isMaximalRun {s : Nat} (h : Open p xs i (some s)) (bound : i ≤ xs.length)
    (after : ∀ a, xs[i]? = some a → p a = false) : IsMaximalRun p xs s (i - s) where
  nonempty := Nat.sub_pos_of_lt (h.started s rfl)
  inside := by
    have started := h.started s rfl
    omega
  holds := by
    intro j a above below found
    have started := h.started s rfl
    exact h.holds s j a rfl above (by omega) found
  before := h.before
  after := by
    have started := h.started s rfl
    rw [Nat.add_sub_cancel' (Nat.le_of_lt started)]
    exact after

theorem Open.getD_le {runStart : Option Nat} (h : Open p xs i runStart) : runStart.getD i ≤ i := by
  cases runStart with
  | none => exact le_rfl
  | some s => exact Nat.le_of_lt (h.started s rfl)

theorem Open.mem_closed_iff {runStart : Option Nat} (h : Open p xs i runStart)
    (bound : i ≤ xs.length) (after : ∀ a, xs[i]? = some a → p a = false) :
    (start, len) ∈ closed i runStart ↔
      IsMaximalRun p xs start len ∧ runStart.getD i ≤ start ∧ start < i := by
  cases runStart with
  | none =>
    rw [closed, Option.toList_none, List.map_nil, Option.getD_none]
    constructor
    · intro impossible
      cases impossible
    · rintro ⟨_, above, below⟩
      exact absurd below (Nat.not_lt.mpr above)
  | some s =>
    rw [closed, Option.toList_some, List.map_singleton, List.mem_singleton, Prod.mk.injEq,
      Option.getD_some]
    constructor
    · rintro ⟨rfl, rfl⟩
      exact ⟨h.isMaximalRun bound after, le_rfl, h.started start rfl⟩
    · rintro ⟨run, above, below⟩
      obtain ⟨rfl, long⟩ := h.starts bound run above below
      refine ⟨rfl, ?_⟩
      by_contra other
      -- a longer run would go on with the element here
      have inside : i < xs.length := by
        have whole := run.inside
        omega
      have fails := after xs[i] (List.getElem?_eq_getElem inside)
      rw [run.holds i xs[i] (Nat.le_of_lt below) (by omega) (List.getElem?_eq_getElem inside)] at fails
      cases fails

theorem closed_apart (i : Nat) (runStart : Option Nat) :
    (closed i runStart).Pairwise (fun a b => a.1 + a.2 < b.1) := by
  cases runStart with
  | none => exact List.Pairwise.nil
  | some s => exact List.pairwise_singleton _ _

theorem IsMaximalRun.first_holds (run : IsMaximalRun p xs start len) {a : α}
    (found : xs[start]? = some a) : p a = true :=
  run.holds start a le_rfl (Nat.lt_add_of_pos_right run.nonempty) found

theorem getElem?_of_drop {a : α} {rest : List α} (left : xs.drop i = a :: rest) :
    xs[i]? = some a ∧ xs.drop (i + 1) = rest := by
  constructor
  · rw [← Nat.add_zero i, ← List.getElem?_drop, left]
    rfl
  · rw [← List.tail_drop, left]
    rfl

theorem mem_collect_iff {runStart : Option Nat} {rest : List α} (h : Open p xs i runStart)
    (bound : i ≤ xs.length) (left : xs.drop i = rest) :
    (start, len) ∈ collect p i runStart rest ↔
      IsMaximalRun p xs start len ∧ runStart.getD i ≤ start := by
  induction rest generalizing i runStart with
  | nil =>
    have atEnd : xs.length ≤ i := List.drop_eq_nil_iff.mp left
    have after : ∀ a, xs[i]? = some a → p a = false := by
      intro a found
      rw [List.getElem?_eq_none atEnd] at found
      cases found
    rw [collect, h.mem_closed_iff bound after]
    refine and_congr_right (fun run => and_iff_left ?_)
    have inside := run.inside
    have nonempty := run.nonempty
    omega
  | cons a rest ih =>
    obtain ⟨here, next⟩ := getElem?_of_drop left
    have more : i + 1 ≤ xs.length := (List.getElem?_eq_some_iff.mp here).1
    rw [collect]
    by_cases holds : p a = true
    · rw [if_pos holds, ih (h.extend here holds) more next, Option.getD_some]
    · have fails : p a = false := eq_false_of_ne_true holds
      have after : ∀ b, xs[i]? = some b → p b = false := by
        intro b found
        rw [here] at found
        cases found
        exact fails
      rw [if_neg holds, List.mem_append, h.mem_closed_iff bound after,
        ih (open_after here fails) more next, Option.getD_none, ← and_or_left]
      refine and_congr_right (fun run => ?_)
      have elsewhere : start ≠ i := by
        rintro rfl
        exact holds (IsMaximalRun.first_holds run here)
      have below := h.getD_le
      omega

theorem collect_apart {runStart : Option Nat} {rest : List α} (h : Open p xs i runStart)
    (bound : i ≤ xs.length) (left : xs.drop i = rest) :
    (collect p i runStart rest).Pairwise (fun a b => a.1 + a.2 < b.1) := by
  induction rest generalizing i runStart with
  | nil => exact closed_apart i runStart
  | cons a rest ih =>
    obtain ⟨here, next⟩ := getElem?_of_drop left
    have more : i + 1 ≤ xs.length := (List.getElem?_eq_some_iff.mp here).1
    rw [collect]
    by_cases holds : p a = true
    · rw [if_pos holds]
      exact ih (h.extend here holds) more next
    · have ended : Open p xs (i + 1) none := open_after here (eq_false_of_ne_true holds)
      rw [if_neg holds]
      refine List.pairwise_append.mpr ⟨closed_apart i runStart, ih ended more next, ?_⟩
      rintro ⟨first, size⟩ mem ⟨start, len⟩ later
      have above := ((mem_collect_iff ended more next).mp later).2
      obtain ⟨s, opened, same⟩ := List.mem_map.mp mem
      cases same
      have started := h.started first (Option.mem_toList.mp opened)
      rw [Option.getD_none] at above
      show first + (i - first) < start
      omega

def runs (p : α → Bool) (xs : List α) : List RunPlace := collect p 0 none xs

theorem mem_runs_iff : (start, len) ∈ runs p xs ↔ IsMaximalRun p xs start len := by
  rw [runs, mem_collect_iff open_start (Nat.zero_le _) (List.drop_zero), Option.getD_none]
  exact and_iff_left (Nat.zero_le _)

theorem runs_apart (p : α → Bool) (xs : List α) :
    (runs p xs).Pairwise (fun a b => a.1 + a.2 < b.1) :=
  collect_apart open_start (Nat.zero_le _) List.drop_zero

end MaximalRuns
