import GitAgentic.Json.Value

/-! Files behind their names. An open file keeps its inode when the name is taken away or
given to another, and two programs that open one name share what they write. -/

structure Inodes (ν : Type) where
  link : ν → Option Nat
  contents : List GitAgentic.Bytes
  linked : ∀ n a, link n = some a → a < contents.length
  /-- No inode has two names. -/
  single : ∀ n m a, link n = some a → link m = some a → n = m

namespace Inodes

open GitAgentic (Bytes)

variable {ν : Type}

def content (d : Inodes ν) (a : Nat) : Bytes := d.contents.getD a []

def file? (d : Inodes ν) (n : ν) : Option Bytes := (d.link n).map d.content

def empty : Inodes ν where
  link _ := none
  contents := []
  linked _ _ h := by cases h
  single _ _ _ h := by cases h

def patch (old : Bytes) (offset : Nat) (piece : Bytes) : Bytes :=
  old.take offset ++ List.replicate (offset - old.length) 0 ++ piece ++
    old.drop (offset + piece.length)

def setContent (d : Inodes ν) (a : Nat) (bytes : Bytes) : Inodes ν where
  link := d.link
  contents := d.contents.set a bytes
  linked n b h := by
    rw [List.length_set]
    exact d.linked n b h
  single := d.single

/-- `write` through an open file. -/
def writeAt (d : Inodes ν) (a offset : Nat) (piece : Bytes) : Inodes ν :=
  d.setContent a (patch (d.content a) offset piece)

variable [DecidableEq ν]

def addInode (d : Inodes ν) (n : ν) : Inodes ν where
  link := Function.update d.link n (some d.contents.length)
  contents := d.contents ++ [[]]
  linked m a h := by
    rw [List.length_append, List.length_singleton]
    by_cases here : m = n
    · subst here
      rw [Function.update_self] at h
      cases h
      exact Nat.lt_succ_self _
    · rw [Function.update_of_ne here] at h
      exact (d.linked m a h).trans (Nat.lt_succ_self _)
  single m k a hm hk := by
    by_cases m_here : m = n <;> by_cases k_here : k = n
    · exact m_here.trans k_here.symm
    · subst m_here
      rw [Function.update_self] at hm
      rw [Function.update_of_ne k_here] at hk
      cases hm
      exact absurd (d.linked k _ hk) (Nat.lt_irrefl _)
    · subst k_here
      rw [Function.update_self] at hk
      rw [Function.update_of_ne m_here] at hm
      cases hk
      exact absurd (d.linked m _ hm) (Nat.lt_irrefl _)
    · rw [Function.update_of_ne m_here] at hm
      rw [Function.update_of_ne k_here] at hk
      exact d.single m k a hm hk

/-- `File::create`: a file that is there is emptied and keeps its inode. -/
def create (d : Inodes ν) (n : ν) : Nat × Inodes ν :=
  match d.link n with
  | some a => (a, d.setContent a [])
  | none => (d.contents.length, d.addInode n)

/-- The inode of one name goes over to another. -/
def relink (d : Inodes ν) (n m : ν) (a : Nat) (held : d.link n = some a) : Inodes ν where
  link := Function.update (Function.update d.link n none) m (some a)
  contents := d.contents
  linked k b h := by
    by_cases target : k = m
    · subst target
      rw [Function.update_self] at h
      cases h
      exact d.linked n a held
    rw [Function.update_of_ne target] at h
    by_cases source : k = n
    · subst source
      rw [Function.update_self] at h
      cases h
    rw [Function.update_of_ne source] at h
    exact d.linked k b h
  single := by
    have moved : ∀ k b, Function.update (Function.update d.link n none) m (some a) k = some b →
        (k = m ∧ b = a) ∨ (k ≠ m ∧ b ≠ a ∧ d.link k = some b) := by
      intro k b h
      by_cases target : k = m
      · subst target
        rw [Function.update_self] at h
        cases h
        exact Or.inl ⟨rfl, rfl⟩
      rw [Function.update_of_ne target] at h
      by_cases source : k = n
      · subst source
        rw [Function.update_self] at h
        cases h
      rw [Function.update_of_ne source] at h
      refine Or.inr ⟨target, ?_, h⟩
      rintro rfl
      exact source (d.single k n b h held)
    intro k l b hk hl
    rcases moved k b hk with ⟨rfl, rfl⟩ | ⟨_, other, hk⟩
    · rcases moved l b hl with ⟨rfl, _⟩ | ⟨_, other, _⟩
      · rfl
      · exact absurd rfl other
    · rcases moved l b hl with ⟨_, rfl⟩ | ⟨_, _, hl⟩
      · exact absurd rfl other
      · exact d.single k l b hk hl

@[simp] theorem link_relink (d : Inodes ν) (n m : ν) (a : Nat) (held : d.link n = some a) :
    (d.relink n m a held).link = Function.update (Function.update d.link n none) m (some a) := rfl

@[simp] theorem content_relink (d : Inodes ν) (n m : ν) (a b : Nat) (held : d.link n = some a) :
    (d.relink n m a held).content b = d.content b := rfl

/-- `rename`, over a file or to a free name. -/
def rename (d : Inodes ν) (n m : ν) : Option (Inodes ν) :=
  match held : d.link n with
  | none => none
  | some a => some (d.relink n m a held)

omit [DecidableEq ν] in
theorem content_setContent (d : Inodes ν) {a : Nat} (inside : a < d.contents.length) (bytes : Bytes)
    (b : Nat) : (d.setContent a bytes).content b = if b = a then bytes else d.content b := by
  unfold content setContent
  rw [List.getD_eq_getElem?_getD, List.getElem?_set, List.getD_eq_getElem?_getD]
  by_cases here : b = a
  · subst here
    rw [if_pos rfl, if_pos inside, if_pos rfl]
    rfl
  · rw [if_neg (Ne.symm here), if_neg here]

theorem link_create (d : Inodes ν) (n : ν) :
    (d.create n).2.link = Function.update d.link n (some (d.create n).1) := by
  unfold create
  cases held : d.link n with
  | none => rfl
  | some a =>
    funext m
    by_cases here : m = n
    · subst here
      rw [Function.update_self]
      exact held
    · rw [Function.update_of_ne here]
      rfl

theorem content_create (d : Inodes ν) (n : ν) (b : Nat) :
    (d.create n).2.content b = if b = (d.create n).1 then [] else d.content b := by
  unfold create
  cases held : d.link n with
  | some a => exact content_setContent d (d.linked n a held) [] b
  | none =>
    dsimp only
    unfold content addInode
    rw [List.getD_eq_getElem?_getD, List.getD_eq_getElem?_getD, List.getElem?_append]
    split
    · rename_i before
      rw [if_neg before.ne]
    · rename_i later
      have none : d.contents[b]? = none := List.getElem?_eq_none (Nat.le_of_not_lt later)
      have blank : ([[]] : List Bytes)[b - d.contents.length]?.getD [] = [] := by
        cases b - d.contents.length <;> rfl
      rw [none, blank]
      split <;> rfl

theorem rename_of_link {d : Inodes ν} {n : ν} {a : Nat} (held : d.link n = some a) (m : ν) :
    d.rename n m = some (d.relink n m a held) := by
  unfold rename
  split
  · rename_i free
    rw [held] at free
    cases free
  · rename_i b found
    have same : b = a := Option.some.inj (found.symm.trans held)
    subst same
    rfl

/- What the readers of the names find after each call. -/

theorem file?_create (d : Inodes ν) (n : ν) :
    (d.create n).2.file? = Function.update d.file? n (some []) := by
  funext m
  by_cases here : m = n
  · subst here
    rw [Function.update_self, file?, link_create, Function.update_self, Option.map_some, content_create,
      if_pos rfl]
  · rw [Function.update_of_ne here, file?, link_create, Function.update_of_ne here]
    refine Option.map_congr (fun a held => ?_)
    have apart : a ≠ (d.create n).1 := by
      rintro rfl
      have first : (d.create n).2.link m = some (d.create n).1 := by
        rw [link_create, Function.update_of_ne here]
        exact held
      exact here ((d.create n).2.single m n _ first (by rw [link_create, Function.update_self]))
    rw [content_create, if_neg apart]

theorem file?_writeAt {d : Inodes ν} {n : ν} {a : Nat} (held : d.link n = some a) (offset : Nat)
    (piece : Bytes) : (d.writeAt a offset piece).file? =
      Function.update d.file? n (some (patch (d.content a) offset piece)) := by
  have inside := d.linked n a held
  funext m
  by_cases here : m = n
  · subst here
    rw [Function.update_self, file?, show (d.writeAt a offset piece).link m = some a from held,
      Option.map_some, writeAt, content_setContent d inside, if_pos rfl]
  · rw [Function.update_of_ne here, file?, writeAt]
    refine Option.map_congr (fun b linked => ?_)
    have apart : b ≠ a := by
      rintro rfl
      exact here (d.single m n b linked held)
    rw [content_setContent d inside, if_neg apart]

theorem file?_relink {d : Inodes ν} {n : ν} {a : Nat} (held : d.link n = some a) (m : ν) :
    (d.relink n m a held).file? = Function.update (Function.update d.file? n none) m (d.file? n) := by
  funext k
  unfold file?
  rw [link_relink, held]
  by_cases target : k = m
  · subst target
    rw [Function.update_self, Function.update_self]
    rfl
  rw [Function.update_of_ne target, Function.update_of_ne target]
  by_cases source : k = n
  · subst source
    rw [Function.update_self, Function.update_self]
    rfl
  · rw [Function.update_of_ne source, Function.update_of_ne source]
    rfl

theorem patch_end (old piece : Bytes) : patch old old.length piece = old ++ piece := by
  have after : old.drop (old.length + piece.length) = [] := List.drop_eq_nil_of_le (Nat.le_add_right _ _)
  rw [patch, List.take_length, Nat.sub_self, List.replicate_zero, List.append_nil, after,
    List.append_nil]

end Inodes
