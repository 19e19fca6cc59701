import GitAgentic.Daemon.Lineage

/-! What the daemon checks before it binds its socket: that the store has the tip of every branch. -/
namespace GitAgentic

namespace Lifecycle

variable {Hash M : Type} (P : Platform Hash)

/-- `ObjectStore::has`. A failed `exists` counts as absent. -/
def storeHas (hash : Hash) : DaemonProgram Hash M Bool :=
  .op id (fun d => .done (.ok (has P d.repo.objects hash))) (.done (.ok false))

/-- The branches whose tips the store lacks, with the tips. -/
def brokenBranches : List String → DaemonProgram Hash M (List (String × String))
  | [] => return []
  | branch :: branches => do
    match ← withContext ("reading branch ref " ++ branch) (onDaemonRefs (Refs.readBranch P branch)) with
    | none => brokenBranches branches
    | some tip => do
      let present ← storeHas P tip
      let broken ← brokenBranches branches
      if present then return broken else return (branch, P.toHex tip) :: broken

def reconciliationFailed (broken : List (String × String)) : String :=
  "startup ref reconciliation failed: " ++ decimal broken.length ++
    " branch ref(s) point at object(s) missing from the store (" ++
    ", ".intercalate (broken.map (fun e => e.1 ++ "@" ++ String.ofList (e.2.toList.take 16))) ++
    "). The daemon was likely killed mid-commit before the ref update completed, or the object " ++
    "store was corrupted. Inspect <.agentic/refs/heads/>; the safe recovery is to manually rewind " ++
    "the affected branch ref(s) to their previous tip (or to delete them if no recoverable parent " ++
    "exists)."

def reconcileRefsOnStartup : DaemonProgram Hash M Unit := do
  let branches ← withContext "listing branches at startup" (onDaemonRefs Refs.listBranches)
  let broken ← brokenBranches P branches
  if broken = [] then return () else Program.fail (.text (reconciliationFailed broken))

variable {P}

theorem storeHas_still (hash : Hash) : (storeHas P hash : DaemonProgram Hash M Bool).Still :=
  ⟨rfl, fun _ => trivial, trivial⟩

theorem brokenBranches_still (branches : List String) :
    (brokenBranches P branches : DaemonProgram Hash M _).Still := by
  induction branches with
  | nil => trivial
  | cons branch branches ih =>
    refine Program.Still.bind (onDaemonRefs_still (Refs.readBranch_still branch)).mapError (fun tip => ?_)
    cases tip with
    | none => exact ih
    | some tip =>
      refine Program.Still.bind (storeHas_still tip) (fun present => Program.Still.bind ih (fun broken => ?_))
      cases present <;> trivial

theorem listBranches_still : (Refs.listBranches : Refs.RefsProgram Hash (List String)).Still := by
  refine Program.Still.bind (Refs.pathExists_still heads) (fun found => ?_)
  cases found
  · trivial
  · exact Program.Still.read _ _

theorem reconcileRefsOnStartup_still : (reconcileRefsOnStartup P : DaemonProgram Hash M Unit).Still := by
  refine Program.Still.bind (onDaemonRefs_still listBranches_still).mapError (fun branches => ?_)
  refine Program.Still.bind (brokenBranches_still branches) (fun broken => ?_)
  by_cases none_ : broken = []
  · rw [if_pos none_]
    trivial
  · rw [if_neg none_]
    trivial

def lostTip (P : Platform Hash) (files : Files) (w : String → Option Hash) (branch : String) :
    Option (String × Hash) :=
  (w branch).bind (fun tip => if has P files tip then none else some (branch, tip))

theorem lostTip_eq_some_iff {files : Files} {w : String → Option Hash} {branch : String} {e : String × Hash} :
    lostTip P files w branch = some e ↔ e.1 = branch ∧ w e.1 = some e.2 ∧ has P files e.2 = false := by
  rw [lostTip, Option.bind_eq_some_iff]
  constructor
  · rintro ⟨tip, at_, lost⟩
    cases absent : has P files tip with
    | true =>
      rw [absent, if_pos rfl] at lost
      cases lost
    | false =>
      rw [absent, if_neg Bool.false_ne_true] at lost
      cases lost
      exact ⟨rfl, at_, absent⟩
  · rintro ⟨rfl, at_, absent⟩
    exact ⟨e.2, at_, by rw [absent, if_neg Bool.false_ne_true]⟩

theorem run_brokenBranches {w : String → Option Hash} {d : Daemon M} (refines : Refs.Refines P w d.repo.agentic)
    {branches : List String} (live : ∀ branch ∈ branches, (w branch).isSome = true) :
    (brokenBranches P branches).run d =
      (.ok ((branches.filterMap (lostTip P d.repo.objects w)).map (fun e => (e.1, P.toHex e.2))), d) := by
  induction branches with
  | nil => rfl
  | cons branch branches ih =>
    obtain ⟨tip, at_⟩ := Option.isSome_iff_exists.mp (live branch List.mem_cons_self)
    have rest := ih (fun other mem => live other (List.mem_cons_of_mem branch mem))
    have read : (withContext ("reading branch ref " ++ branch) (onDaemonRefs (Refs.readBranch P branch)) :
        DaemonProgram Hash M _).run d = (.ok (some tip), d) := by
      rw [withContext, Program.run_mapError, run_onDaemonRefs, refines.readBranch at_]
      rfl
    refine (Program.run_bind_of_ok read).trans ?_
    refine (Program.run_bind_of_ok (a := has P d.repo.objects tip) rfl).trans ?_
    refine (Program.run_bind_of_ok rest).trans ?_
    cases present : has P d.repo.objects tip with
    | true =>
      have there : lostTip P d.repo.objects w branch = none := by simp [lostTip, at_, present]
      rw [List.filterMap_cons, there]
      rfl
    | false =>
      have lost : lostTip P d.repo.objects w branch = some (branch, tip) := by simp [lostTip, at_, present]
      rw [List.filterMap_cons, lost]
      rfl

theorem run_reconcile {w : String → Option Hash} {d : Daemon M} (refines : Refs.Refines P w d.repo.agentic) :
    ∃ broken : List (String × Hash), broken.Nodup ∧
      (∀ branch tip, (branch, tip) ∈ broken ↔ w branch = some tip ∧ has P d.repo.objects tip = false) ∧
      (reconcileRefsOnStartup P).run d =
        (if broken = [] then .ok ()
          else .error (.text (reconciliationFailed (broken.map (fun e => (e.1, P.toHex e.2))))), d) := by
  obtain ⟨branches, listed, once, all⟩ := refines.listBranches
  refine ⟨branches.filterMap (lostTip P d.repo.objects w), ?_, ?_, ?_⟩
  · refine once.filterMap ?_
    intro branch other e here there
    exact (lostTip_eq_some_iff.mp here).1.symm.trans (lostTip_eq_some_iff.mp there).1
  · intro branch tip
    rw [List.mem_filterMap]
    constructor
    · rintro ⟨other, _, lost⟩
      exact (lostTip_eq_some_iff.mp lost).2
    · rintro ⟨at_, absent⟩
      exact ⟨branch, (all branch).mpr (by rw [at_]; rfl), lostTip_eq_some_iff.mpr ⟨rfl, at_, absent⟩⟩
  · have list : (withContext "listing branches at startup" (onDaemonRefs Refs.listBranches) :
        DaemonProgram Hash M _).run d = (.ok branches, d) := by
      rw [withContext, Program.run_mapError, run_onDaemonRefs, listed]
      rfl
    refine (Program.run_bind_of_ok list).trans ?_
    refine (Program.run_bind_of_ok (run_brokenBranches refines (fun branch mem => (all branch).mp mem))).trans ?_
    cases lost : branches.filterMap (lostTip P d.repo.objects w) with
    | nil => rfl
    | cons e broken => rfl

variable [DecidableEq Hash] {hmac : Hmac} {config : DaemonConfig Hash M}

theorem Whole.has {files : Files} {hash : Hash} (whole : Whole P files hash) : has P files hash = true := by
  cases whole with
  | first has _ _ => exact slot_of_get has
  | next has _ _ _ => exact slot_of_get has

/-- However the operations before were cut off, the daemon starts again. Where objects have been lost
since, it does not start if a tip is among them; it names the branches of these tips and no others.
The check itself changes nothing. -/
theorem starts_again {d₀ d : Daemon M} (bare : Daemon.Bare d₀) (ran : Daemon.Ran P hmac config d₀ d) :
    ((reconcileRefsOnStartup P : DaemonProgram Hash M Unit).run d).1 = .ok () ∧
    (reconcileRefsOnStartup P : DaemonProgram Hash M Unit).Still ∧
    ∃ w, Refs.Serves P w d.repo.agentic ∧ ∀ files : Files, ∃ broken : List (String × Hash), broken.Nodup ∧
      (∀ branch tip, (branch, tip) ∈ broken ↔ w branch = some tip ∧ has P files tip = false) ∧
      ((reconcileRefsOnStartup P).run { d with repo := { d.repo with objects := files } }).1 =
        if broken = [] then .ok ()
        else .error (.text (reconciliationFailed (broken.map (fun e => (e.1, P.toHex e.2))))) := by
  obtain ⟨w, intact⟩ := ran.intact bare
  refine ⟨?_, reconcileRefsOnStartup_still, w, intact.refs.serves, fun files => ?_⟩
  · obtain ⟨broken, _, lost, outcome⟩ := run_reconcile intact.refs
    have none_ : broken = [] := by
      refine List.eq_nil_iff_forall_not_mem.mpr ?_
      rintro ⟨branch, tip⟩ mem
      obtain ⟨at_, absent⟩ := (lost branch tip).mp mem
      rw [Whole.has (intact.whole branch tip at_)] at absent
      cases absent
    rw [outcome, if_pos none_]
  · obtain ⟨broken, once, lost, outcome⟩ :=
      run_reconcile (d := { d with repo := { d.repo with objects := files } }) intact.refs
    exact ⟨broken, once, lost, congrArg Prod.fst outcome⟩

open Daemon in
theorem starts_again_hello :
    let d := ((helloOperation.program Platform.sample (fun _ m => m) Daemon.quiet).run start).2
    ((reconcileRefsOnStartup Platform.sample : DaemonProgram Bytes Unit Unit).run d).1 = .ok () ∧
      ∃ w, Refs.Serves Platform.sample w d.repo.agentic ∧ ∀ branch tip, w branch = some tip →
        ((reconcileRefsOnStartup Platform.sample).run
          { d with repo := { d.repo with objects := fun _ => none } }).1 ≠ .ok () := by
  intro d
  have bare : Bare start := ⟨fun _ => rfl, Refs.opened_fresh⟩
  have ran : Ran Platform.sample (fun _ m => m) Daemon.quiet start d :=
    Ran.operated helloOperation Ran.opened hello_plain (Program.reaches_run _ start)
  obtain ⟨starts, _, w, serves, losses⟩ := starts_again bare ran
  refine ⟨starts, w, serves, fun branch tip at_ => ?_⟩
  obtain ⟨broken, _, lost, outcome⟩ := losses (fun _ => none)
  have named : (branch, tip) ∈ broken := (lost branch tip).mpr ⟨at_, rfl⟩
  rw [outcome, if_neg (List.ne_nil_of_mem named)]
  rintro ⟨⟩

end Lifecycle

end GitAgentic
