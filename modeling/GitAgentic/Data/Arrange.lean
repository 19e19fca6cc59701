import Mathlib

/-! A list built by putting each new element before the first one whose key is not
smaller. Elements of equal key end up newest first. -/
namespace Arrange

variable {α κ η : Type} [LinearOrder κ] (key : α → κ)

def put (a : α) (l : List α) : List α := l.orderedInsert (fun x y => key x ≤ key y) a

def arrange (l : List α) : List α := l.foldl (fun acc a => put key a acc) []

theorem arrange_snoc (l : List α) (a : α) : arrange key (l ++ [a]) = put key a (arrange key l) := by
  simp [arrange]

def Sorted (l : List α) : Prop := l.Pairwise (fun x y => key x ≤ key y)

variable {key}

theorem mem_put {a b : α} {l : List α} : b ∈ put key a l ↔ b = a ∨ b ∈ l :=
  List.mem_orderedInsert _

theorem put_sorted {l : List α} (h : Sorted key l) (a : α) : Sorted key (put key a l) := by
  have : Std.Total (fun x y : α => key x ≤ key y) := ⟨fun x y => le_total (key x) (key y)⟩
  have : IsTrans α (fun x y : α => key x ≤ key y) := ⟨fun _ _ _ => le_trans⟩
  exact List.Pairwise.orderedInsert a l h

variable (key)

theorem arrange_sorted (l : List α) : Sorted key (arrange key l) := by
  induction l using List.reverseRecOn with
  | nil => exact List.Pairwise.nil
  | append_singleton l a ih =>
    rw [arrange_snoc]
    exact put_sorted ih a

theorem mem_arrange {a : α} {l : List α} : a ∈ arrange key l ↔ a ∈ l := by
  induction l using List.reverseRecOn with
  | nil => rfl
  | append_singleton l b ih =>
    rw [arrange_snoc, mem_put, ih, List.mem_append, List.mem_singleton, or_comm]

theorem arrange_eq_nil_iff {l : List α} : arrange key l = [] ↔ l = [] := by
  simp only [List.eq_nil_iff_forall_not_mem, mem_arrange]

theorem put_cons (a b : α) (l : List α) :
    put key a (b :: l) = if key a ≤ key b then a :: b :: l else b :: put key a l := rfl

variable {key}

/- Dropping elements commutes with the arrangement of the others. -/

theorem put_filter {l : List α} (h : Sorted key l) (a : α) (p : α → Bool) :
    (put key a l).filter p = if p a then put key a (l.filter p) else l.filter p := by
  induction l with
  | nil => cases pa : p a <;> simp [put, pa]
  | cons b l ih =>
    obtain ⟨least, rest⟩ := List.pairwise_cons.mp h
    rw [put_cons]
    by_cases before : key a ≤ key b
    · have first : put key a ((b :: l).filter p) = a :: (b :: l).filter p := by
        have below : ∀ c ∈ (b :: l).filter p, key a ≤ key c := by
          intro c mem
          rcases List.mem_cons.mp (List.mem_of_mem_filter mem) with rfl | mem
          · exact before
          · exact before.trans (least c mem)
        cases filtered : (b :: l).filter p with
        | nil => rfl
        | cons c cs =>
          rw [put_cons, if_pos (below c (by rw [filtered]; exact List.mem_cons_self))]
      rw [if_pos before, first, List.filter_cons]
    · rw [if_neg before, List.filter_cons, ih rest]
      cases pb : p b <;> cases pa : p a <;> simp [pb, put_cons, before]

theorem arrange_filter (l : List α) (p : α → Bool) :
    (arrange key l).filter p = arrange key (l.filter p) := by
  induction l using List.reverseRecOn with
  | nil => rfl
  | append_singleton l a ih =>
    rw [arrange_snoc, put_filter (arrange_sorted key l), ih, List.filter_append]
    cases pa : p a with
    | true => simp [pa, arrange_snoc]
    | false => simp [pa]

/- Elements seen through a map that keeps the order of their keys. -/

theorem put_map {β : Type} [LinearOrder η] {key' : β → η} (f : α → β) (a : α) (l : List α)
    (same : ∀ b ∈ l, key a ≤ key b ↔ key' (f a) ≤ key' (f b)) :
    (put key a l).map f = put key' (f a) (l.map f) := by
  induction l with
  | nil => rfl
  | cons b l ih =>
    rw [put_cons, List.map_cons, put_cons]
    have first := same b List.mem_cons_self
    have rest := ih (fun c hc => same c (List.mem_cons_of_mem _ hc))
    by_cases before : key a ≤ key b
    · rw [if_pos before, if_pos (first.mp before)]
      rfl
    · rw [if_neg before, if_neg (fun le => before (first.mpr le)), List.map_cons, rest]

variable (key) in
theorem arrange_map {β : Type} [LinearOrder η] (key' : β → η) (f : α → β) (l : List α)
    (same : ∀ a ∈ l, ∀ b ∈ l, key a ≤ key b ↔ key' (f a) ≤ key' (f b)) :
    (arrange key l).map f = arrange key' (l.map f) := by
  induction l using List.reverseRecOn with
  | nil => rfl
  | append_singleton l a ih =>
    have among : ∀ b ∈ l, b ∈ l ++ [a] := fun b hb => List.mem_append_left _ hb
    have last : a ∈ l ++ [a] := List.mem_append_right _ List.mem_cons_self
    rw [List.map_append, List.map_singleton, arrange_snoc, arrange_snoc,
      ← ih (fun b hb c hc => same b (among b hb) c (among c hc))]
    exact put_map f a _ (fun b hb => same a last b (among b ((mem_arrange key).mp hb)))

/- The order of arrival. -/

variable (key) in
theorem arrange_perm (l : List α) : (arrange key l).Perm l := by
  induction l using List.reverseRecOn with
  | nil => exact .refl []
  | append_singleton l a ih =>
    rw [arrange_snoc]
    have placed : (put key a (arrange key l)).Perm (a :: arrange key l) :=
      List.perm_orderedInsert _ a _
    exact (placed.trans (ih.cons a)).trans (List.perm_append_singleton a l).symm

theorem arrange_congr {l l' : List α} (perm : l'.Perm l)
    (distinct : l.Pairwise (fun a b => key a ≠ key b)) : arrange key l' = arrange key l := by
  have same : (arrange key l').Perm (arrange key l) :=
    ((arrange_perm key l').trans perm).trans (arrange_perm key l).symm
  refine same.eq_of_pairwise (fun a b ha hb ab ba => ?_) (arrange_sorted key l') (arrange_sorted key l)
  by_contra different
  have ha : a ∈ l := perm.mem_iff.mp ((mem_arrange key).mp ha)
  have hb : b ∈ l := (mem_arrange key).mp hb
  have symm : Std.Symm (fun a b : α => key a ≠ key b) := ⟨fun _ _ h => h.symm⟩
  exact distinct.forall ha hb different (le_antisymm ab ba)

theorem arrange_reverse {k : κ} {l : List α} (same : ∀ a ∈ l, key a = k) :
    arrange key l = l.reverse := by
  induction l using List.reverseRecOn with
  | nil => rfl
  | append_singleton l a ih =>
    have earlier : ∀ b ∈ l, key b = k := fun b hb => same b (List.mem_append_left _ hb)
    have last : key a = k := same a (List.mem_append_right _ List.mem_cons_self)
    rw [arrange_snoc, ih earlier, List.reverse_append, List.reverse_singleton, List.singleton_append]
    cases back : l.reverse with
    | nil => rfl
    | cons b rest =>
      have mem : b ∈ l := List.mem_reverse.mp (back ▸ List.mem_cons_self)
      rw [put_cons, if_pos (le_of_eq (last.trans (earlier b mem).symm))]

theorem arrange_swap_ne {a b : α} (l : List α) (same : key a = key b) (different : a ≠ b) :
    arrange key (l ++ [a, b]) ≠ arrange key (l ++ [b, a]) := by
  intro equal
  have kept := congrArg (List.filter (fun x => key x = key b)) equal
  have among : ∀ (l : List α), ∀ x ∈ l.filter (fun x => key x = key b), key x = key b :=
    fun l x hx => of_decide_eq_true (List.mem_filter.mp hx).2
  rw [arrange_filter, arrange_filter, arrange_reverse (among _), arrange_reverse (among _)] at kept
  simp [same, Ne.symm different] at kept

theorem arrange_order_free_iff {l : List α} (nodup : l.Nodup) :
    (∀ l₁ l₂, l₁.Perm l → l₂.Perm l → arrange key l₁ = arrange key l₂) ↔
      l.Pairwise (fun a b => key a ≠ key b) := by
  constructor
  · intro free
    refine nodup.imp_of_mem (fun {a b} ha hb different same => ?_)
    have both : [a, b] ⊆ l := by simp [ha, hb]
    obtain ⟨ab, swapped, within⟩ := List.Nodup.subperm (by simpa using different) both
    obtain ⟨rest, perm⟩ := within.exists_perm_append
    have first : (rest ++ [a, b]).Perm l :=
      (List.perm_append_comm.trans (swapped.symm.append_right rest)).trans perm.symm
    have second : (rest ++ [b, a]).Perm l :=
      ((List.Perm.swap a b []).append_left rest).trans first
    exact arrange_swap_ne rest same different (free _ _ first second)
  · intro distinct l₁ l₂ h₁ h₂
    rw [arrange_congr h₁ distinct, arrange_congr h₂ distinct]

variable (key)

def winner (l : List α) : Option α :=
  l.foldl (fun best a => match best with
    | none => some a
    | some b => if key b < key a then some a else some b) none

theorem winner_snoc (l : List α) (a : α) :
    winner key (l ++ [a]) = match winner key l with
      | none => some a
      | some b => if key b < key a then some a else some b := by
  simp [winner]

variable {key}

theorem put_getLast? {l : List α} (h : Sorted key l) (a : α) :
    (put key a l).getLast? = match l.getLast? with
      | none => some a
      | some b => if key b < key a then some a else some b := by
  induction l with
  | nil => rfl
  | cons b l ih =>
    obtain ⟨least, rest⟩ := List.pairwise_cons.mp h
    rw [put_cons]
    by_cases before : key a ≤ key b
    · rw [if_pos before, List.getLast?_cons_cons]
      have last := List.getLast?_eq_some_getLast (List.cons_ne_nil b l)
      have above : key a ≤ key ((b :: l).getLast (List.cons_ne_nil b l)) := by
        rcases List.mem_cons.mp (List.getLast_mem (List.cons_ne_nil b l)) with same | mem
        · rw [same]
          exact before
        · exact before.trans (least _ mem)
      rw [last]
      simp only [not_lt.mpr above, if_false]
    · rw [if_neg before]
      have smaller := lt_of_not_ge before
      cases l with
      | nil => simp [put, smaller]
      | cons c l =>
        have nonempty : put key a (c :: l) ≠ [] := by
          rw [put_cons]
          split <;> simp
        obtain ⟨d, ds, shape⟩ := List.exists_cons_of_ne_nil nonempty
        rw [List.getLast?_cons_cons, ← ih rest, shape, List.getLast?_cons_cons]

theorem arrange_getLast? (l : List α) : (arrange key l).getLast? = winner key l := by
  induction l using List.reverseRecOn with
  | nil => rfl
  | append_singleton l a ih =>
    rw [arrange_snoc, put_getLast? (arrange_sorted key l), ih, winner_snoc]

/- A second key that refines the order. -/

variable [LinearOrder η] (sub : α → η)

variable (key) in
/-- Strictly increasing in both keys, the second deciding ties of the first. -/
def Strict (l : List α) : Prop :=
  l.Pairwise (fun x y => key x < key y ∨ key x = key y ∧ sub x < sub y)

theorem put_strict_iff {l : List α} (h : Sorted key l) (a : α) :
    Strict key sub (put key a l) ↔
      (∀ b ∈ l, key a = key b → sub a < sub b) ∧ Strict key sub l := by
  induction l with
  | nil => simp [put, Strict]
  | cons b l ih =>
    obtain ⟨least, rest⟩ := List.pairwise_cons.mp h
    rw [put_cons]
    by_cases before : key a ≤ key b
    · have below : ∀ c ∈ b :: l, key a ≤ key c := by
        intro c mem
        rcases List.mem_cons.mp mem with rfl | mem
        · exact before
        · exact before.trans (least c mem)
      rw [if_pos before, Strict, List.pairwise_cons]
      refine and_congr_left (fun _ => forall₂_congr (fun c mem => ?_))
      rcases lt_or_eq_of_le (below c mem) with lt | eq
      · simp [lt, lt.ne]
      · simp [eq]
    · rw [if_neg before, Strict, List.pairwise_cons, ← Strict, ih rest]
      have apart : key a ≠ key b := fun e => before e.le
      simp only [Strict, List.pairwise_cons, List.forall_mem_cons, mem_put]
      constructor
      · rintro ⟨hb, ha, hl⟩
        exact ⟨⟨fun e => absurd e apart, ha⟩, fun c mem => hb c (Or.inr mem), hl⟩
      · rintro ⟨⟨_, ha⟩, hb, hl⟩
        refine ⟨?_, ha, hl⟩
        rintro c (rfl | mem)
        · exact Or.inl (lt_of_not_ge before)
        · exact hb c mem

theorem arrange_strict_iff (l : List α) :
    Strict key sub (arrange key l) ↔
      l.Pairwise (fun earlier later => key later = key earlier → sub later < sub earlier) := by
  induction l using List.reverseRecOn with
  | nil => simp [arrange, Strict]
  | append_singleton l a ih =>
    rw [arrange_snoc, put_strict_iff sub (arrange_sorted key l), ih, List.pairwise_append]
    simp only [mem_arrange, List.pairwise_singleton, List.mem_singleton, forall_eq, true_and]
    exact and_comm

end Arrange
