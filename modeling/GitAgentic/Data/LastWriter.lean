import GitAgentic.Data.Arrange

/-! Keyed tables under upserts and deletes of whole rows. What a run of changes
leaves at a key is decided by the last change to that key. -/
namespace LastWriter

variable {κ ρ α σ : Type} [DecidableEq κ]

inductive Change (κ ρ : Type) where
  | upsert (key : κ) (row : ρ)
  | delete (key : κ)

namespace Change

def key : Change κ ρ → κ
  | .upsert k _ => k
  | .delete k => k

def result : Change κ ρ → Option ρ
  | .upsert _ r => some r
  | .delete _ => none

def apply (m : κ → Option ρ) (c : Change κ ρ) : κ → Option ρ := Function.update m c.key c.result

end Change

def replay (m : κ → Option ρ) (cs : List (Change κ ρ)) : κ → Option ρ := cs.foldl Change.apply m

/-- What the last change to the key leaves; `none` when no change is to the key. -/
def outcome (k : κ) : List (Change κ ρ) → Option (Option ρ)
  | [] => none
  | c :: cs => (outcome k cs).or (if c.key = k then some c.result else none)

theorem outcome_append (k : κ) (cs ds : List (Change κ ρ)) :
    outcome k (cs ++ ds) = (outcome k ds).or (outcome k cs) := by
  induction cs with
  | nil => simp [outcome]
  | cons c cs ih => simp only [List.cons_append, outcome, ih, Option.or_assoc]

theorem replay_apply (m : κ → Option ρ) (cs : List (Change κ ρ)) (k : κ) :
    replay m cs k = (outcome k cs).getD (m k) := by
  induction cs generalizing m with
  | nil => rfl
  | cons c cs ih =>
    have step : replay m (c :: cs) k = replay (c.apply m) cs k := rfl
    rw [step, ih, outcome]
    by_cases h : c.key = k
    · subst h
      cases outcome c.key cs <;> simp [Change.apply]
    · have other : c.apply m k = m k := Function.update_of_ne (fun e => h e.symm) _ _
      cases outcome k cs <;> simp [other, h]

theorem replay_append (m : κ → Option ρ) (cs ds : List (Change κ ρ)) :
    replay m (cs ++ ds) = replay (replay m cs) ds := List.foldl_append

/- Changes in chunks, replayed in an order given by a key of the chunks. -/

section

variable (changes : α → List (Change κ ρ))

def touches (k : κ) (a : α) : Bool := (outcome k (changes a)).isSome

theorem outcome_flatMap (k : κ) (l : List α) :
    outcome k (l.flatMap changes) =
      ((l.filter (touches changes k)).getLast?).bind (fun a => outcome k (changes a)) := by
  induction l using List.reverseRecOn with
  | nil => rfl
  | append_singleton l a ih =>
    rw [List.flatMap_append, outcome_append, ih, List.filter_append]
    cases touched : touches changes k a with
    | true =>
      obtain ⟨result, found⟩ := Option.isSome_iff_exists.mp touched
      simp [touched, found]
    | false =>
      have untouched : outcome k (changes a) = none := by simpa [touches] using touched
      simp [touched, untouched]

variable [LinearOrder σ] (key : α → σ)

/-- For every table key, the chunk that the arrangement replays last among those
that touch it leaves what the newest of them leaves. -/
def NewestWins (l : List α) : Prop :=
  ∀ k, (Arrange.winner key (l.filter (touches changes k))).bind (fun a => outcome k (changes a)) =
    ((l.filter (touches changes k)).getLast?).bind (fun a => outcome k (changes a))

theorem outcome_isSome_of_touches {k : κ} {l : List α} {o : Option α}
    (mem : ∀ a ∈ o, a ∈ l.filter (touches changes k)) :
    (o.bind (fun a => outcome k (changes a))).isSome = o.isSome := by
  cases o with
  | none => rfl
  | some a => exact (List.mem_filter.mp (mem a rfl)).2

theorem getD_none_inj {x y : Option (Option ρ)} (same : x.isSome = y.isSome) :
    x.getD none = y.getD none ↔ x = y := by
  cases x <;> cases y <;> simp_all

theorem replay_arrange_iff (l : List α) :
    replay (fun _ => none) ((Arrange.arrange key l).flatMap changes) =
        replay (fun _ => none) (l.flatMap changes) ↔ NewestWins changes key l := by
  rw [funext_iff]
  refine forall_congr' (fun k => ?_)
  rw [replay_apply, replay_apply, outcome_flatMap, outcome_flatMap, Arrange.arrange_filter,
    Arrange.arrange_getLast?]
  have top := outcome_isSome_of_touches changes (k := k) (l := l)
    (o := Arrange.winner key (l.filter (touches changes k))) (by
      intro a ha
      rw [← Arrange.arrange_getLast?] at ha
      exact (Arrange.mem_arrange key).mp (List.mem_of_getLast? ha))
  have last := outcome_isSome_of_touches changes (k := k) (l := l)
    (o := (l.filter (touches changes k)).getLast?) (fun a ha => List.mem_of_getLast? ha)
  have both : (Arrange.winner key (l.filter (touches changes k))).isSome =
      ((l.filter (touches changes k)).getLast?).isSome := by
    rw [← Arrange.arrange_getLast?, Bool.eq_iff_iff, List.getLast?_isSome, List.getLast?_isSome,
      Ne, Arrange.arrange_eq_nil_iff]
  exact getD_none_inj (top.trans (both.trans last.symm))

end

end LastWriter
