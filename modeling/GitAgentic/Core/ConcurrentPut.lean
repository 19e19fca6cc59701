import GitAgentic.Core.RoundTrip
import GitAgentic.Core.StoreProgram
import GitAgentic.Data.Inodes
import GitAgentic.Data.Runs

/-! Puts and reads of one address by several threads, one system call at a time. The temporary
file of an address has one name, so all puts of the address write to it. -/
namespace GitAgentic

abbrev Disk := Inodes ObjectPath

inductive Read where
  | get
  | getRaw

/-- Where a put is, between two of its system calls. -/
inductive Writer (Hash : Type) where
  | checking
  | creating
  | writing (inode offset : Nat)
  | written
  | done (result : Except (Error Hash) Hash)
  deriving DecidableEq

inductive Answer (Hash : Type) where
  | object (result : Except (Error Hash) (Object Hash))
  | raw (result : Except (Error Hash) Bytes)

inductive Reader (Hash : Type) where
  | checking
  | opening
  | reading (inode : Nat) (seen : Bytes)
  | done (answer : Answer Hash)

/-- The temporary file is its own: it has been created and not yet renamed. -/
def Writer.Holds {Hash : Type} : Writer Hash → Prop
  | .writing _ _ => True
  | .written => True
  | _ => False

structure Threads (ι κ Hash : Type) where
  disk : Disk
  puts : ι → Writer Hash
  gets : κ → Reader Hash

/-- The next system call of a thread. A call that moves bytes moves one more than the number
given, or what is left. -/
inductive Turn (ι κ : Type) where
  | put (i : ι) (piece : Nat)
  | get (k : κ) (piece : Nat)

def Turn.isPut {ι κ : Type} [DecidableEq ι] (i : ι) : Turn ι κ → Bool
  | .put j _ => j == i
  | .get _ _ => false

def Turn.isGet {ι κ : Type} [DecidableEq κ] (k : κ) : Turn ι κ → Bool
  | .put _ _ => false
  | .get l _ => l == k

section

variable {Hash ι κ : Type} [DecidableEq Hash] (P : Platform Hash) (S : FsObjectStore Hash)

def tmpFor (hash : Hash) : ObjectPath := (pathFor P hash).withExtension "tmp"

namespace Call

/-- The scan comes before the first system call. -/
def start (c : Call Hash) : Writer Hash :=
  if c.hits S ≠ [] ∧ c.hash P ∉ S.allowlist then .done (.error (.secretDetected (c.hits S)))
  else .checking

/-- Making the directory of the address touches no file and has no turn of its own. -/
def step (c : Call Hash) (piece : Nat) : Writer Hash → Disk → Writer Hash × Disk
  | .checking, d =>
    if (d.link (pathFor P (c.hash P))).isSome then (.done (.ok (c.hash P)), d) else (.creating, d)
  | .creating, d =>
    (.writing (d.create (tmpFor P (c.hash P))).1 0, (d.create (tmpFor P (c.hash P))).2)
  | .writing a offset, d =>
    match ((P.encodeAll (c.stored P)).drop offset).take (piece + 1) with
    | [] => (.written, d)
    | b :: bs => (.writing a (offset + (b :: bs).length), d.writeAt a offset (b :: bs))
  | .written, d =>
    match d.rename (tmpFor P (c.hash P)) (pathFor P (c.hash P)) with
    | none => (.done (.error .io), d)
    | some d' => (.done (.ok (c.hash P)), d')
  | .done result, d => (.done result, d)

end Call

namespace Read

/-- What is returned when the file has been found with this content, or not at all. -/
def answer (hash : Hash) (found : Option Bytes) : Read → Answer Hash
  | .get => .object (GitAgentic.get P (fun _ => found) hash)
  | .getRaw => .raw (GitAgentic.getRaw P (fun _ => found) hash)

def failed : Read → Answer Hash
  | .get => .object (.error .io)
  | .getRaw => .raw (.error .io)

def step (hash : Hash) (r : Read) (piece : Nat) : Reader Hash → Disk → Reader Hash
  | .checking, d =>
    if (d.link (pathFor P hash)).isSome then .opening else .done (r.answer P hash none)
  | .opening, d =>
    match d.link (pathFor P hash) with
    | none => .done r.failed
    | some a => .reading a []
  | .reading a seen, d =>
    match ((d.content a).drop seen.length).take (piece + 1) with
    | [] => .done (r.answer P hash (some seen))
    | b :: bs => .reading a (seen ++ b :: bs)
  | .done answer, _ => .done answer

end Read

namespace Threads

def start (calls : ι → Call Hash) (d : Disk) : Threads ι κ Hash where
  disk := d
  puts i := (calls i).start P S
  gets _ := .checking

variable [DecidableEq ι] [DecidableEq κ]

def step (calls : ι → Call Hash) (reads : κ → Read) (hash : Hash) (s : Threads ι κ Hash) :
    Turn ι κ → Threads ι κ Hash
  | .put i piece =>
    { s with
      disk := ((calls i).step P piece (s.puts i) s.disk).2
      puts := Function.update s.puts i ((calls i).step P piece (s.puts i) s.disk).1 }
  | .get k piece =>
    { s with gets := Function.update s.gets k ((reads k).step P hash piece (s.gets k) s.disk) }

/-- A put creates the temporary file when no other put is between the creation of its own
and the rename. -/
def Alone (s : Threads ι κ Hash) : Turn ι κ → Prop
  | .put i _ => s.puts i = .creating → ∀ j, j ≠ i → ¬ (s.puts j).Holds
  | .get _ _ => True

end Threads

def Stored (calls : ι → Call Hash) (content : Bytes) : Prop :=
  ∃ i, content = P.encodeAll ((calls i).stored P)

/-- The address is free, or one of the contents has been stored there before. -/
def Opened (calls : ι → Call Hash) (hash : Hash) (d : Disk) : Prop :=
  ∀ content, d.file? (pathFor P hash) = some content → Stored P calls content

def Writer.Fine (hash : Hash) (d : Disk) (full : Bytes) : Writer Hash → Prop
  | .checking => True
  | .creating => True
  | .writing a offset => d.link (tmpFor P hash) = some a ∧ d.content a = full.take offset
  | .written => ∃ a, d.link (tmpFor P hash) = some a ∧ d.content a = full
  | .done result => result = .ok hash

/-- What a read may return: the object is missing, or all of it was read. -/
def Read.Answers (calls : ι → Call Hash) (hash : Hash) (r : Read) (answer : Answer Hash) : Prop :=
  answer = r.answer P hash none ∨ ∃ i, answer = r.answer P hash (some (P.encodeAll ((calls i).stored P)))

def Reader.Fine (calls : ι → Call Hash) (hash : Hash) (d : Disk) (r : Read) : Reader Hash → Prop
  | .checking => True
  | .opening => (d.link (pathFor P hash)).isSome = true
  | .reading a seen => a < d.contents.length ∧ d.link (tmpFor P hash) ≠ some a ∧
      Stored P calls (d.content a) ∧ seen <+: d.content a
  | .done answer => r.Answers P calls hash answer

structure Threads.Inv (calls : ι → Call Hash) (reads : κ → Read) (hash : Hash) (s : Threads ι κ Hash) :
    Prop where
  sole : ∀ i j, (s.puts i).Holds → (s.puts j).Holds → i = j
  puts : ∀ i, (s.puts i).Fine P hash s.disk (P.encodeAll ((calls i).stored P))
  gets : ∀ k, (s.gets k).Fine P calls hash s.disk (reads k)
  opened : Opened P calls hash s.disk

end

section

variable {Hash : Type} {P : Platform Hash} {hash : Hash}

variable (P) in
/-- A change of the temporary file, seen from every other file. -/
structure Beneath (hash : Hash) (d d' : Disk) : Prop where
  longer : d.contents.length ≤ d'.contents.length
  others : ∀ a, a < d.contents.length → d.link (tmpFor P hash) ≠ some a →
    d'.link (tmpFor P hash) ≠ some a ∧ d'.content a = d.content a
  path : (d.link (pathFor P hash)).isSome = true → (d'.link (pathFor P hash)).isSome = true

theorem path_ne_tmp : pathFor P hash ≠ tmpFor P hash := by
  intro same
  have extension := congrArg ObjectPath.extension same
  simp [tmpFor, pathFor, ObjectPath.withExtension] at extension

theorem Beneath.refl (d : Disk) : Beneath P hash d d := ⟨le_rfl, fun _ _ h => ⟨h, rfl⟩, fun h => h⟩

theorem create_fresh {d : Disk} {n : ObjectPath} {a : Nat} (inside : a < d.contents.length)
    (other : d.link n ≠ some a) : a ≠ (d.create n).1 := by
  unfold Inodes.create
  cases held : d.link n with
  | none => exact inside.ne
  | some b =>
    rintro rfl
    exact other held

theorem beneath_create (d : Disk) : Beneath P hash d (d.create (tmpFor P hash)).2 where
  longer := by
    unfold Inodes.create
    cases d.link (tmpFor P hash) with
    | none =>
      have grown : (d.contents ++ [[]]).length = d.contents.length + 1 := List.length_append
      exact (Nat.le_succ _).trans grown.ge
    | some a =>
      have kept : (d.contents.set a []).length = d.contents.length := List.length_set
      exact kept.ge
  others a inside other := by
    have apart := create_fresh inside other
    rw [Inodes.link_create, Function.update_self, Inodes.content_create, if_neg apart]
    exact ⟨fun same => apart (Option.some.inj same).symm, rfl⟩
  path taken := by
    rw [Inodes.link_create, Function.update_of_ne path_ne_tmp]
    exact taken

theorem beneath_writeAt {d : Disk} {a : Nat} (held : d.link (tmpFor P hash) = some a) (offset : Nat)
    (piece : Bytes) : Beneath P hash d (d.writeAt a offset piece) where
  longer := List.length_set.ge
  others b _ other := by
    refine ⟨other, ?_⟩
    rw [Inodes.writeAt, Inodes.content_setContent d (d.linked _ a held), if_neg]
    rintro rfl
    exact other held
  path taken := taken

theorem beneath_relink {d : Disk} {a : Nat} (held : d.link (tmpFor P hash) = some a) :
    Beneath P hash d (d.relink (tmpFor P hash) (pathFor P hash) a held) where
  longer := le_rfl
  others b _ _ := by
    refine ⟨?_, rfl⟩
    rw [Inodes.link_relink, Function.update_of_ne path_ne_tmp.symm, Function.update_self]
    nofun
  path _ := by
    rw [Inodes.link_relink, Function.update_self]
    rfl

end

section

variable {Hash ι κ : Type} [DecidableEq Hash] {P : Platform Hash} {S : FsObjectStore Hash} {hash : Hash}
  {calls : ι → Call Hash} {reads : κ → Read}

theorem Reader.Fine.beneath {d d' : Disk} {r : Read} {g : Reader Hash}
    (fine : g.Fine P calls hash d r) (beneath : Beneath P hash d d') : g.Fine P calls hash d' r := by
  cases g with
  | checking => trivial
  | opening => exact beneath.path fine
  | reading a seen =>
    obtain ⟨inside, other, stored, seen⟩ := fine
    obtain ⟨other', same⟩ := beneath.others a inside other
    refine ⟨inside.trans_le beneath.longer, other', ?_, ?_⟩
    · rw [same]
      exact stored
    · rw [same]
      exact seen
  | done answer => exact fine

omit [DecidableEq Hash] in
theorem Writer.Fine.elsewhere {d d' : Disk} {full : Bytes} {w : Writer Hash}
    (fine : w.Fine P hash d full) (free : ¬ w.Holds) : w.Fine P hash d' full := by
  cases w with
  | checking => trivial
  | creating => trivial
  | writing a offset => exact absurd trivial free
  | written => exact absurd trivial free
  | done result => exact fine

/-- What a step of a put does to the file and to the thread itself. -/
structure Call.Stepped (P : Platform Hash) (calls : ι → Call Hash) (hash : Hash) (full : Bytes)
    (d : Disk) (w : Writer Hash) (d' : Disk) (w' : Writer Hash) : Prop where
  beneath : Beneath P hash d d'
  opened : Opened P calls hash d'
  fine : w'.Fine P hash d' full
  /-- The temporary file is changed by its holder, and taken when it is created. -/
  holds : d' = d ∧ (w'.Holds → w.Holds) ∨ w.Holds ∨ w = .creating

omit [DecidableEq Hash] in
theorem opened_of_path {d d' : Disk} (opened : Opened P calls hash d) (beneath : Beneath P hash d d')
    (same : d'.link (pathFor P hash) = d.link (pathFor P hash)) : Opened P calls hash d' := by
  intro content found
  obtain ⟨a, held, rfl⟩ := Option.map_eq_some_iff.mp found
  rw [same] at held
  have other : d.link (tmpFor P hash) ≠ some a := fun tmp => path_ne_tmp (d.single _ _ a held tmp)
  rw [(beneath.others a (d.linked _ a held) other).2]
  exact opened _ (by rw [Inodes.file?, held]; rfl)

omit [DecidableEq Hash] in
theorem drop_nil_of_take {content : Bytes} {offset piece : Nat}
    (ended : (content.drop offset).take (piece + 1) = []) : content.drop offset = [] := by
  rcases List.take_eq_nil_iff.mp ended with none | nothing
  · cases none
  · exact nothing

theorem patch_take {full : Bytes} {offset : Nat} {b : UInt8} {bs : Bytes}
    (more : b :: bs <+: full.drop offset) :
    Inodes.patch (full.take offset) offset (b :: bs) = full.take (offset + (b :: bs).length) := by
  have short : offset ≤ full.length := by
    by_contra long
    rw [List.drop_eq_nil_of_le (Nat.le_of_not_le long)] at more
    cases List.prefix_nil.mp more
  have size : (full.take offset).length = offset := by rw [List.length_take, Nat.min_eq_left short]
  have appended := Inodes.patch_end (full.take offset) (b :: bs)
  rw [size] at appended
  rw [appended, List.take_add, ← List.prefix_iff_eq_take.mp more]

omit [DecidableEq Hash] in
theorem put_stepped {c : Call Hash} {d : Disk} {w : Writer Hash} (same : c.hash P = hash)
    (mem : Stored P calls (P.encodeAll (c.stored P))) (opened : Opened P calls hash d)
    (fine : w.Fine P hash d (P.encodeAll (c.stored P))) (piece : Nat) :
    Call.Stepped P calls hash (P.encodeAll (c.stored P)) d w (c.step P piece w d).2
      (c.step P piece w d).1 := by
  subst same
  cases w with
  | checking =>
    simp only [Call.step]
    split
    · exact ⟨.refl d, opened, rfl, Or.inl ⟨rfl, id⟩⟩
    · exact ⟨.refl d, opened, trivial, Or.inl ⟨rfl, id⟩⟩
  | creating =>
    have beneath : Beneath P (c.hash P) d (d.create (tmpFor P (c.hash P))).2 := beneath_create d
    simp only [Call.step]
    refine ⟨beneath, opened_of_path opened beneath ?_, ⟨?_, ?_⟩, Or.inr (Or.inr rfl)⟩
    · rw [Inodes.link_create, Function.update_of_ne path_ne_tmp]
    · rw [Inodes.link_create, Function.update_self]
    · rw [Inodes.content_create, if_pos rfl]
      rfl
  | writing a offset =>
    obtain ⟨held, so_far⟩ := fine
    simp only [Call.step]
    split
    · rename_i ended
      refine ⟨.refl d, opened, ⟨a, held, ?_⟩, Or.inr (Or.inl trivial)⟩
      rw [so_far, List.take_of_length_le (List.drop_eq_nil_iff.mp (drop_nil_of_take ended))]
    · rename_i b bs part
      have beneath := beneath_writeAt held offset (b :: bs)
      refine ⟨beneath, opened_of_path opened beneath rfl, ⟨held, ?_⟩, Or.inr (Or.inl trivial)⟩
      rw [Inodes.writeAt, Inodes.content_setContent d (d.linked _ a held), if_pos rfl, so_far,
        patch_take (part ▸ List.take_prefix _ _)]
  | written =>
    obtain ⟨a, held, full⟩ := fine
    simp only [Call.step, Inodes.rename_of_link held]
    refine ⟨beneath_relink held, ?_, rfl, Or.inr (Or.inl trivial)⟩
    intro content found
    obtain ⟨b, linked, rfl⟩ := Option.map_eq_some_iff.mp found
    have moved : b = a := by
      rw [Inodes.link_relink, Function.update_self] at linked
      exact (Option.some.inj linked).symm
    subst moved
    rw [Inodes.content_relink, full]
    exact mem
  | done result => exact ⟨.refl d, opened, fine, Or.inl ⟨rfl, id⟩⟩

theorem get_fine {r : Read} {d : Disk} {g : Reader Hash} (opened : Opened P calls hash d)
    (fine : g.Fine P calls hash d r) (piece : Nat) :
    (r.step P hash piece g d).Fine P calls hash d r := by
  cases g with
  | checking =>
    simp only [Read.step]
    split
    · rename_i taken
      exact taken
    · exact Or.inl rfl
  | opening =>
    obtain ⟨a, held⟩ := Option.isSome_iff_exists.mp fine
    simp only [Read.step, held]
    have stored : Stored P calls (d.content a) := opened _ (by rw [Inodes.file?, held]; rfl)
    exact ⟨d.linked _ a held, fun tmp => path_ne_tmp (d.single _ _ a held tmp), stored, List.nil_prefix⟩
  | reading a seen =>
    obtain ⟨inside, other, ⟨i, full⟩, rest, whole⟩ := fine
    have left : (d.content a).drop seen.length = rest := by rw [← whole, List.drop_left]
    simp only [Read.step, left]
    split
    · rename_i ended
      refine Or.inr ⟨i, ?_⟩
      have done : rest = [] := left.symm.trans (drop_nil_of_take (left ▸ ended))
      rw [← full, ← whole, done, List.append_nil]
    · rename_i b bs part
      refine ⟨inside, other, ⟨i, full⟩, ?_⟩
      rw [← whole]
      exact (List.prefix_append_right_inj seen).mpr (part ▸ List.take_prefix _ _)
  | done answer => exact fine

namespace Threads

variable [DecidableEq ι] [DecidableEq κ] {s : Threads ι κ Hash}

theorem Inv.step_put (inv : s.Inv P calls reads hash) (same : ∀ i, (calls i).hash P = hash) (i : ι) (piece : Nat)
    (alone : s.Alone (.put i piece)) :
    (s.step P calls reads hash (.put i piece)).Inv P calls reads hash := by
  have stepped := put_stepped (same i) ⟨i, rfl⟩ inv.opened (inv.puts i) piece
  have others : ∀ j, j ≠ i → (s.puts j).Holds →
      ((calls i).step P piece (s.puts i) s.disk).2 = s.disk ∧
        (((calls i).step P piece (s.puts i) s.disk).1.Holds → (s.puts i).Holds) := by
    intro j other holds
    rcases stepped.holds with kept | mine | creating
    · exact kept
    · exact absurd (inv.sole j i holds mine) other
    · exact absurd holds (alone creating j other)
  have newly : ∀ j, j ≠ i → ((calls i).step P piece (s.puts i) s.disk).1.Holds → ¬ (s.puts j).Holds :=
    fun j other mine holds => other (inv.sole j i holds ((others j other holds).2 mine))
  refine ⟨?_, ?_, fun k => (inv.gets k).beneath stepped.beneath, stepped.opened⟩
  · intro j l hj hl
    simp only [step] at hj hl
    by_cases j_here : j = i <;> by_cases l_here : l = i
    · exact j_here.trans l_here.symm
    · rw [j_here, Function.update_self] at hj
      rw [Function.update_of_ne l_here] at hl
      exact absurd hl (newly l l_here hj)
    · rw [l_here, Function.update_self] at hl
      rw [Function.update_of_ne j_here] at hj
      exact absurd hj (newly j j_here hl)
    · rw [Function.update_of_ne j_here] at hj
      rw [Function.update_of_ne l_here] at hl
      exact inv.sole j l hj hl
  · intro j
    simp only [step]
    by_cases here : j = i
    · rw [here, Function.update_self]
      exact stepped.fine
    · rw [Function.update_of_ne here]
      by_cases holds : (s.puts j).Holds
      · rw [(others j here holds).1]
        exact inv.puts j
      · exact (inv.puts j).elsewhere holds

theorem Inv.step_get (inv : s.Inv P calls reads hash) (k : κ) (piece : Nat) :
    (s.step P calls reads hash (.get k piece)).Inv P calls reads hash := by
  refine ⟨inv.sole, inv.puts, fun l => ?_, inv.opened⟩
  simp only [step]
  by_cases here : l = k
  · rw [here, Function.update_self]
    exact get_fine inv.opened (inv.gets k) piece
  · rw [Function.update_of_ne here]
    exact inv.gets l

omit [DecidableEq ι] [DecidableEq κ] in
theorem Inv.start (accepted : ∀ i, (calls i).Accepted P S)
    {d : Disk} (opened : Opened P calls hash d) :
    (Threads.start P S calls d : Threads ι κ Hash).Inv P calls reads hash := by
  have checking : ∀ i, (calls i).start P S = .checking :=
    fun i => if_neg (fun refused => (accepted i).elim refused.1 refused.2)
  refine ⟨fun i j hi _ => ?_, fun i => ?_, fun _ => trivial, opened⟩
  · simp only [Threads.start, checking] at hi
    cases hi
  · simp only [Threads.start, checking]
    trivial

theorem Inv.step (same : ∀ i, (calls i).hash P = hash) (s : Threads ι κ Hash) (t : Turn ι κ)
    (inv : s.Inv P calls reads hash) (alone : s.Alone t) :
    (s.step P calls reads hash t).Inv P calls reads hash := by
  cases t with
  | put i piece => exact inv.step_put same i piece alone
  | get k piece => exact inv.step_get k piece

end Threads

/- A thread that gets its turns comes to an end. -/

/-- How many turns a put still needs at most. -/
def Writer.left (full : Nat) : Writer Hash → Nat
  | .checking => full + 4
  | .creating => full + 3
  | .writing _ offset => full - offset + 2
  | .written => 1
  | .done _ => 0

def Reader.left (full : Nat) : Reader Hash → Nat
  | .checking => full + 3
  | .opening => full + 2
  | .reading _ seen => full - seen.length + 1
  | .done _ => 0

omit [DecidableEq Hash] in
theorem put_left (c : Call Hash) (piece : Nat) (w : Writer Hash) (d : Disk) :
    (c.step P piece w d).1.left (P.encodeAll (c.stored P)).length ≤
      w.left (P.encodeAll (c.stored P)).length - 1 := by
  cases w with
  | checking =>
    simp only [Call.step]
    split <;> simp [Writer.left]
  | creating => simp [Call.step, Writer.left]
  | writing a offset =>
    simp only [Call.step]
    split
    · simp [Writer.left]
    · rename_i b bs part
      have more : b :: bs <+: (P.encodeAll (c.stored P)).drop offset := part ▸ List.take_prefix _ _
      have size := more.length_le
      rw [List.length_drop, List.length_cons] at size
      simp only [Writer.left, List.length_cons]
      omega
  | written =>
    simp only [Call.step]
    split <;> simp [Writer.left]
  | done result => exact le_rfl

theorem get_left {r : Read} {d : Disk} {g : Reader Hash} {full : Nat}
    (fine : g.Fine P calls hash d r) (bound : ∀ i, (P.encodeAll ((calls i).stored P)).length ≤ full)
    (piece : Nat) : (r.step P hash piece g d).left full ≤ g.left full - 1 := by
  cases g with
  | checking =>
    simp only [Read.step]
    split <;> simp [Reader.left]
  | opening =>
    simp only [Read.step]
    split <;> simp [Reader.left]
  | reading a seen =>
    obtain ⟨_, _, ⟨i, content⟩, rest, whole⟩ := fine
    have left : (d.content a).drop seen.length = rest := by rw [← whole, List.drop_left]
    simp only [Read.step, left]
    split
    · simp [Reader.left]
    · rename_i b bs part
      have more : b :: bs <+: rest := part ▸ List.take_prefix _ _
      have size := more.length_le
      have short := bound i
      rw [← content, ← whole, List.length_append] at short
      simp only [Reader.left, List.length_append, List.length_cons] at size ⊢
      omega
  | done answer => exact le_rfl

omit [DecidableEq Hash] in
theorem Writer.done_of_left {full : Nat} {w : Writer Hash} (none : w.left full ≤ 0) :
    ∃ result, w = .done result := by
  cases w with
  | done result => exact ⟨result, rfl⟩
  | _ => simp [Writer.left] at none

omit [DecidableEq Hash] in
theorem Reader.done_of_left {full : Nat} {g : Reader Hash} (none : g.left full ≤ 0) :
    ∃ answer, g = .done answer := by
  cases g with
  | done answer => exact ⟨answer, rfl⟩
  | _ => simp [Reader.left] at none

/- A put that runs alone does what the put does as a program over the files. -/

variable (P) in
/-- Between its steps, seen from the files it started on. -/
def Lone (c : Call Hash) (files : Files) : Writer Hash × Disk → Prop
  | (.checking, d) => d.file? = files
  | (.creating, d) => d.file? = files ∧ slots P files (c.hash P) = none
  | (.writing a offset, d) => slots P files (c.hash P) = none ∧
      d.link (tmpFor P (c.hash P)) = some a ∧ d.content a = (P.encodeAll (c.stored P)).take offset ∧
      d.file? = Function.update files (tmpFor P (c.hash P)) (some ((P.encodeAll (c.stored P)).take offset))
  | (.written, d) => slots P files (c.hash P) = none ∧ (d.link (tmpFor P (c.hash P))).isSome ∧
      d.file? = Function.update files (tmpFor P (c.hash P)) (some (P.encodeAll (c.stored P)))
  | (.done result, d) => result = .ok (c.hash P) ∧
      d.file? = ((storeProgram P (c.hash P) (c.stored P)).run files).2

omit [DecidableEq Hash] in
theorem taken_iff_link (d : Disk) (hash : Hash) :
    (d.link (pathFor P hash)).isSome = (slots P d.file? hash).isSome := by
  rw [slots, Inodes.file?, Option.isSome_map]

omit [DecidableEq Hash] in
theorem lone_step {c : Call Hash} {files : Files} {w : Writer Hash} {d : Disk}
    (lone : Lone P c files (w, d)) (piece : Nat) : Lone P c files (c.step P piece w d) := by
  cases w with
  | checking =>
    obtain rfl : d.file? = files := lone
    simp only [Call.step, taken_iff_link]
    cases taken : slots P d.file? (c.hash P) with
    | some compressed => exact ⟨rfl, by rw [run_store_taken (Option.isSome_of_eq_some taken)]⟩
    | none => exact ⟨rfl, taken⟩
  | creating =>
    obtain ⟨rfl, free⟩ := lone
    refine ⟨free, ?_, ?_, ?_⟩
    · rw [Inodes.link_create, Function.update_self]
    · rw [Inodes.content_create, if_pos rfl]
      rfl
    · exact Inodes.file?_create d _
  | writing a offset =>
    obtain ⟨free, held, so_far, found⟩ := lone
    simp only [Call.step]
    split
    · rename_i ended
      have whole : (P.encodeAll (c.stored P)).take offset = P.encodeAll (c.stored P) :=
        List.take_of_length_le (List.drop_eq_nil_iff.mp (drop_nil_of_take ended))
      rw [whole] at found
      exact ⟨free, Option.isSome_of_eq_some held, found⟩
    · rename_i b bs part
      have grown := patch_take (part ▸ List.take_prefix _ _)
      refine ⟨free, held, ?_, ?_⟩
      · rw [Inodes.writeAt, Inodes.content_setContent d (d.linked _ a held), if_pos rfl, so_far, grown]
      · rw [Inodes.file?_writeAt held, so_far, grown, found, Function.update_idem]
  | written =>
    obtain ⟨free, link, found⟩ := lone
    obtain ⟨a, held⟩ := Option.isSome_iff_exists.mp link
    simp only [Call.step, Inodes.rename_of_link held]
    refine ⟨rfl, ?_⟩
    rw [Inodes.file?_relink held, found, run_store_free free]
    rfl
  | done result => exact lone

omit [DecidableEq Hash] in
theorem lone_run (c : Call Hash) (d : Disk) (pieces : List Nat)
    (enough : (P.encodeAll (c.stored P)).length + 4 ≤ pieces.length) :
    let ended := pieces.foldl (fun at_ piece => c.step P piece at_.1 at_.2) (Writer.checking, d)
    ended.1 = .done (.ok (c.hash P)) ∧
      ended.2.file? = ((storeProgram P (c.hash P) (c.stored P)).run d.file?).2 := by
  have follows : ∀ (pieces : List Nat) (at_ : Writer Hash × Disk), Lone P c d.file? at_ →
      at_.1.left (P.encodeAll (c.stored P)).length ≤ pieces.length →
      Lone P c d.file? (pieces.foldl (fun at_ piece => c.step P piece at_.1 at_.2) at_) ∧
        ∃ result, (pieces.foldl (fun at_ piece => c.step P piece at_.1 at_.2) at_).1 = .done result := by
    intro pieces
    induction pieces with
    | nil => exact fun at_ lone short => ⟨lone, Writer.done_of_left short⟩
    | cons piece pieces ih =>
      intro at_ lone short
      have less := put_left (P := P) c piece at_.1 at_.2
      rw [List.length_cons] at short
      refine ih _ (lone_step lone piece) ?_
      dsimp only
      omega
  obtain ⟨lone, result, done⟩ := follows pieces (.checking, d) rfl enough
  dsimp only
  generalize pieces.foldl (fun at_ piece => c.step P piece at_.1 at_.2) (.checking, d) = ended at lone done
  obtain ⟨w, d'⟩ := ended
  obtain rfl : w = .done result := done
  obtain ⟨rfl, same⟩ := lone
  exact ⟨rfl, same⟩

theorem answer_object (o : Object Hash) (policy : ScanPolicy) :
    Read.get.answer P (o.hash P) (some (P.encodeAll ((Call.put o policy).stored P))) = .object (.ok o) :=
  congrArg Answer.object (has_of_slot rfl)

theorem answer_raw (kind : ObjectKind) (bytes : Bytes) :
    Read.getRaw.answer P (P.of bytes) (some (P.encodeAll ((Call.putRaw kind bytes : Call Hash).stored P))) =
      .raw (.ok bytes) := congrArg Answer.raw (hasRaw_of_slot rfl)

namespace Threads

variable (P) in
/-- What the puts and the reads of a run have returned, and that they return once they have had
their turns. -/
structure Sound (calls : ι → Call Hash) (reads : κ → Read) (hash : Hash) [DecidableEq ι] [DecidableEq κ]
    (turns : List (Turn ι κ)) (s : Threads ι κ Hash) : Prop where
  ok : ∀ i result, s.puts i = .done result → result = .ok hash
  stored : ∀ i, (P.encodeAll ((calls i).stored P)).length + 4 ≤ turns.countP (Turn.isPut i) →
    s.puts i = .done (.ok hash)
  whole : ∀ k answer, s.gets k = .done answer → (reads k).Answers P calls hash answer
  answered : ∀ k full, (∀ i, (P.encodeAll ((calls i).stored P)).length ≤ full) →
    full + 3 ≤ turns.countP (Turn.isGet k) → ∃ answer, s.gets k = .done answer
  /-- Where all put one object, `get` returns it or finds nothing. -/
  object : ∀ o, (∀ i, ∃ policy, calls i = .put o policy) → ∀ k, reads k = .get → ∀ answer,
    s.gets k = .done answer → answer = .object (.error (.notFound hash)) ∨ answer = .object (.ok o)
  raw : ∀ bytes, (∀ i, ∃ kind, calls i = .putRaw kind bytes) → ∀ k, reads k = .getRaw → ∀ answer,
    s.gets k = .done answer → answer = .raw (.error (.notFound hash)) ∨ answer = .raw (.ok bytes)

variable [DecidableEq ι] [DecidableEq κ]

theorem put_counts (same : ∀ i, (calls i).hash P = hash) {turns : List (Turn ι κ)}
    {s : Threads ι κ Hash} (alone : Runs.Along (Threads.step P calls reads hash) Threads.Alone turns s)
    (inv : s.Inv P calls reads hash) (i : ι) :
    ((Runs.run (Threads.step P calls reads hash) turns s).puts i).left
        (P.encodeAll ((calls i).stored P)).length ≤
      (s.puts i).left (P.encodeAll ((calls i).stored P)).length - turns.countP (Turn.isPut i) := by
  refine @Runs.Along.countdown _ _ (Threads.step P calls reads hash) Threads.Alone
    (Threads.Inv P calls reads hash) (fun s => (s.puts i).left (P.encodeAll ((calls i).stored P)).length)
    (Turn.isPut i) (Inv.step same) ?_ ?_ _ _ alone inv
  · rintro s (⟨j, piece⟩ | ⟨k, piece⟩) _ _ own
    · obtain rfl : j = i := eq_of_beq own
      simp only [Threads.step, Function.update_self]
      exact put_left _ _ _ _
    · cases own
  · rintro s (⟨j, piece⟩ | ⟨k, piece⟩) _ _ own
    · have other : i ≠ j := fun h => by simp [Turn.isPut, h] at own
      simp only [Threads.step, Function.update_of_ne other]
      exact le_rfl
    · exact le_rfl

theorem get_counts (same : ∀ i, (calls i).hash P = hash) {full : Nat}
    (bound : ∀ i, (P.encodeAll ((calls i).stored P)).length ≤ full) {turns : List (Turn ι κ)}
    {s : Threads ι κ Hash} (alone : Runs.Along (Threads.step P calls reads hash) Threads.Alone turns s)
    (inv : s.Inv P calls reads hash) (k : κ) :
    ((Runs.run (Threads.step P calls reads hash) turns s).gets k).left full ≤
      (s.gets k).left full - turns.countP (Turn.isGet k) := by
  refine @Runs.Along.countdown _ _ (Threads.step P calls reads hash) Threads.Alone
    (Threads.Inv P calls reads hash) (fun s => (s.gets k).left full) (Turn.isGet k) (Inv.step same)
    ?_ ?_ _ _ alone inv
  · rintro s (⟨j, piece⟩ | ⟨l, piece⟩) inv _ own
    · cases own
    · obtain rfl : l = k := eq_of_beq own
      simp only [Threads.step, Function.update_self]
      exact get_left (inv.gets l) bound piece
  · rintro s (⟨j, piece⟩ | ⟨l, piece⟩) _ _ own
    · exact le_rfl
    · have other : k ≠ l := fun h => by simp [Turn.isGet, h] at own
      simp only [Threads.step, Function.update_of_ne other]
      exact le_rfl

/-- Every interleaving in which no put creates the temporary file while another one holds it. -/
theorem sound_of_alone {P : Platform Hash} {S : FsObjectStore Hash} {calls : ι → Call Hash}
    {reads : κ → Read} {hash : Hash} (same : ∀ i, (calls i).hash P = hash)
    (accepted : ∀ i, (calls i).Accepted P S) {d : Disk} (opened : Opened P calls hash d)
    {turns : List (Turn ι κ)} (alone : Runs.Along (Threads.step P calls reads hash) Threads.Alone turns
      (Threads.start P S calls d)) :
    Sound P calls reads hash turns
      (Runs.run (Threads.step P calls reads hash) turns (Threads.start P S calls d)) := by
  have begin_ : (Threads.start P S calls d : Threads ι κ Hash).Inv P calls reads hash :=
    Inv.start accepted opened
  have inv := alone.invariant (Inv.step same) begin_
  have ok : ∀ i result, (Runs.run (Threads.step P calls reads hash) turns
      (Threads.start P S calls d)).puts i = .done result → result = .ok hash := by
    intro i result ended
    have fine := inv.puts i
    rw [ended] at fine
    exact fine
  have whole : ∀ k answer, (Runs.run (Threads.step P calls reads hash) turns
      (Threads.start P S calls d)).gets k = .done answer → (reads k).Answers P calls hash answer := by
    intro k answer ended
    have fine := inv.gets k
    rw [ended] at fine
    exact fine
  refine ⟨ok, fun i enough => ?_, whole, fun k full bound enough => ?_, ?_, ?_⟩
  · have checking : (calls i).start P S = .checking :=
      if_neg (fun refused => (accepted i).elim refused.1 refused.2)
    have counted := put_counts same alone begin_ i
    rw [show (Threads.start P S calls d : Threads ι κ Hash).puts i = .checking from checking] at counted
    obtain ⟨result, ended⟩ := Writer.done_of_left (counted.trans (Nat.sub_eq_zero_of_le enough).le)
    rw [ended, ok i result ended]
  · have counted := get_counts same bound alone begin_ k
    exact Reader.done_of_left (counted.trans (Nat.sub_eq_zero_of_le enough).le)
  · intro o all k get answer ended
    have answers := whole k answer ended
    rw [get] at answers
    rcases answers with missing | ⟨i, found⟩
    · exact Or.inl missing
    · obtain ⟨policy, put⟩ := all i
      have address : hash = o.hash P := by rw [← same i, put]; rfl
      rw [put, address, answer_object] at found
      exact Or.inr found
  · intro bytes all k getRaw answer ended
    have answers := whole k answer ended
    rw [getRaw] at answers
    rcases answers with missing | ⟨i, found⟩
    · exact Or.inl missing
    · obtain ⟨kind, put⟩ := all i
      have address : hash = P.of bytes := by rw [← same i, put]; rfl
      rw [put, address, answer_raw] at found
      exact Or.inr found

instance {Hash : Type} : DecidablePred (Writer.Holds : Writer Hash → Prop)
  | .checking => isFalse id
  | .creating => isFalse id
  | .writing _ _ => isTrue trivial
  | .written => isTrue trivial
  | .done _ => isFalse id

instance [Fintype ι] (s : Threads ι κ Hash) : DecidablePred s.Alone
  | .put i _ => inferInstanceAs (Decidable (s.puts i = .creating → ∀ j, j ≠ i → ¬ (s.puts j).Holds))
  | .get _ _ => isTrue trivial

end Threads

end

/-- Two puts of three bytes. -/
def racers : Bool → Call Bytes := fun _ => .putRaw .segment [1, 2, 3]

def quiet : FsObjectStore Bytes := { scanner := .silent, allowlist := [] }

/-- The second put waits for the first one's rename. -/
def queued : List (Turn Bool Unit) :=
  [.put false 0, .put true 0, .put false 0, .put false 2, .put false 0, .put false 0, .put true 0,
    .get () 0, .get () 0, .get () 0, .put true 2, .put true 0, .put true 0, .get () 7, .get () 0]

theorem racers_opened : Opened Platform.sample racers [1, 2, 3] .empty := fun _ => nofun

theorem racers_accepted (i : Bool) : (racers i).Accepted Platform.sample quiet :=
  Or.inl (Scanner.scanWith_silent [1, 2, 3] {})

theorem sound_of_alone_queued :
    Runs.Along (Threads.step Platform.sample racers (fun _ => .getRaw) [1, 2, 3]) Threads.Alone queued
        (Threads.start Platform.sample quiet racers .empty) ∧
      Threads.Sound Platform.sample racers (fun _ => .getRaw) [1, 2, 3] queued
        (Runs.run (Threads.step Platform.sample racers (fun _ => .getRaw) [1, 2, 3]) queued
          (Threads.start Platform.sample quiet racers .empty)) := by
  have alone : Runs.Along (Threads.step Platform.sample racers (fun _ => .getRaw) [1, 2, 3])
      Threads.Alone queued (Threads.start Platform.sample quiet racers .empty) := by decide +kernel
  exact ⟨alone, Threads.sound_of_alone (fun _ => rfl) racers_accepted racers_opened alone⟩

/-- The second put empties the temporary file that the first one has just filled and is about
to rename. -/
def racing : List (Turn Bool Unit) :=
  [.put false 0, .put true 0, .put false 0, .put false 2, .put false 0, .put true 0, .put false 0,
    .get () 0, .get () 0, .get () 0, .put true 2, .put true 0, .put true 0]

/-- The reader finds an empty file, and the second put has nothing left to rename. -/
theorem racing_torn :
    (∀ i, (racers i).Accepted Platform.sample quiet) ∧ Opened Platform.sample racers [1, 2, 3] .empty ∧
      let s := Runs.run (Threads.step Platform.sample racers (fun _ => .getRaw) [1, 2, 3]) racing
        (Threads.start Platform.sample quiet racers .empty)
      s.puts false = .done (.ok [1, 2, 3]) ∧ s.puts true = .done (.error .io) ∧
        s.gets () = .done (.raw (.error (.integrityError [1, 2, 3] []))) :=
  ⟨racers_accepted, racers_opened, rfl, rfl, rfl⟩

end GitAgentic
