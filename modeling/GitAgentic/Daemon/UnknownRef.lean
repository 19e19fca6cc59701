import GitAgentic.Daemon.CrashSafety
import GitAgentic.Daemon.DiffReply
import GitAgentic.Daemon.WireError

/-! The reply to a request that names a ref which is not there. The reply is classified by the
words of its text, which quotes the name. -/
namespace GitAgentic

/-- What a client is to be told of an unknown ref. -/
structure ErrorReply.IsRefNotFound (reply : ErrorReply) : Prop where
  errorClass : reply.errorClass = .notFound
  code : reply.code = "ref_not_found"
  retryable : reply.retryable = false

/-- The name has none of the words that are looked for before those of an unknown ref. -/
structure Quiet (name : String) : Prop where
  shutdown : mentions "daemon is shutting down" (toAsciiLowercase name) = false
  hash : mentions "invalid hash" (toAsciiLowercase name) = false

theorem toAsciiLowercase_append (s t : String) :
    toAsciiLowercase (s ++ t) = toAsciiLowercase s ++ toAsciiLowercase t := by
  rw [toAsciiLowercase, String.toList_append, List.map_append, String.ofList_append]
  rfl

theorem toAsciiLowercase_refNotFound (name : String) :
    toAsciiLowercase ("ref not found: " ++ name) = "ref not found: " ++ toAsciiLowercase name := by
  have lower : toAsciiLowercase "ref not found: " = "ref not found: " := by simp [toAsciiLowercase]
  rw [toAsciiLowercase_append, lower]

theorem mentions_shutdown (t : String) :
    mentions "daemon is shutting down" ("ref not found: " ++ t) =
      mentions "daemon is shutting down" t := by
  unfold mentions
  rw [String.toList_append]
  refine decide_eq_decide.mpr ?_
  generalize t.toList = cs
  simp only [String.reduceToList, List.cons_append, List.nil_append]
  iterate 15 rw [List.infix_cons_iff]
  simp only [List.cons_prefix_cons, Char.reduceEq, false_and, and_false, false_or]

theorem mentions_hash (t : String) :
    mentions "invalid hash" ("ref not found: " ++ t) = mentions "invalid hash" t := by
  unfold mentions
  rw [String.toList_append]
  refine decide_eq_decide.mpr ?_
  generalize t.toList = cs
  simp only [String.reduceToList, List.cons_append, List.nil_append]
  iterate 15 rw [List.infix_cons_iff]
  simp only [List.cons_prefix_cons, Char.reduceEq, false_and, and_false, false_or]

theorem mentions_refNotFound (t : String) :
    mentions "ref not found" ("ref not found: " ++ t) = true := by
  refine decide_eq_true ?_
  rw [String.toList_append]
  refine List.IsInfix.trans ?_ (List.prefix_append _ _).isInfix
  simp only [String.reduceToList]
  decide

theorem classifyText_refNotFound_iff (name : String) :
    classifyText ("ref not found: " ++ name) = (.notFound, "ref_not_found", false) ↔ Quiet name := by
  unfold classifyText
  simp only [toAsciiLowercase_refNotFound, mentions_shutdown, mentions_hash, mentions_refNotFound,
    Bool.true_or, if_true]
  split_ifs with shutdown hash
  · exact ⟨nofun, fun quiet => absurd shutdown (by simp [quiet.shutdown])⟩
  · exact ⟨nofun, fun quiet => absurd hash (by simp [quiet.hash])⟩
  · exact ⟨fun _ => ⟨eq_false_of_ne_true shutdown, eq_false_of_ne_true hash⟩, fun _ => rfl⟩

section

variable {Hash : Type} (P : Platform Hash) (w : Words)

theorem reply_refNotFound_iff (name : String) :
    (mapAnyhowToResponseError P w (.text ("ref not found: " ++ name))).IsRefNotFound ↔
      Quiet name := by
  have classified : classify P w (.text ("ref not found: " ++ name)) =
      classifyText ("ref not found: " ++ name) := rfl
  rw [← classifyText_refNotFound_iff]
  constructor
  · rintro ⟨errorClass, code, retryable⟩
    simp only [mapAnyhowToResponseError, classified] at errorClass code retryable
    exact Prod.ext errorClass (Prod.ext code retryable)
  · intro h
    constructor <;> simp only [mapAnyhowToResponseError, classified, h]

variable {M : Type} [DecidableEq Hash] (hmac : Hmac) (config : DaemonConfig Hash M)

/-- A request, but for one of the refs it names: a rollback without its target, a diff without
its first or its second side. What the other side of a diff stands for has been read. -/
inductive RefRequest (M : Type) where
  | rollback (d : Daemon M) (args : RollbackArgs) (peerUid : Option UInt32) (nowSeconds : UInt64)
      (now : Int)
  | diffFrom (files : Files) (snapshot : RefsSnapshot Hash) (target : String)
  | diffTo (files : Files) (snapshot : RefsSnapshot Hash) (source : String) (found : Option Hash)
      (looked : snapshot.resolve P source = .ok found)

variable {P}

namespace RefRequest

/-- The outcome of the request with the name put in. -/
def failure (r : RefRequest P M) (name : String) : Option (DaemonError Hash) :=
  match r with
  | .rollback d args peerUid nowSeconds now =>
    match ((Rollback.execute P hmac config { args with target := name } peerUid nowSeconds
      now).run d).1 with
    | .error e => some e
    | .ok _ => none
  | .diffFrom files snapshot target =>
    match handleDiff P files snapshot name target with
    | .error e => some e
    | .ok _ => none
  | .diffTo files snapshot source _ _ =>
    match handleDiff P files snapshot source name with
    | .error e => some e
    | .ok _ => none

/-- The name is not there where the request looks it up. -/
def Unresolved (r : RefRequest P M) (name : String) : Prop :=
  match r with
  | .rollback d _ _ _ _ =>
    ((onDaemonRefs (Refs.resolve P name) : DaemonProgram Hash M _).run d).1 = .ok none
  | .diffFrom _ snapshot _ => snapshot.resolve P name = .ok none
  | .diffTo _ snapshot _ _ _ => snapshot.resolve P name = .ok none

/-- A diff looks up its second side only when the first is there. -/
def blamed (r : RefRequest P M) (name : String) : String :=
  match r with
  | .rollback _ _ _ _ _ => name
  | .diffFrom _ _ _ => name
  | .diffTo _ _ _ (some _) _ => name
  | .diffTo _ _ source none _ => source

theorem failure_eq {r : RefRequest P M} {name : String} (unresolved : r.Unresolved name) :
    r.failure hmac config name = some (.text ("ref not found: " ++ r.blamed name)) := by
  cases r with
  | rollback d args peerUid nowSeconds now =>
    have missing : ((Rollback.resolveTarget P name : DaemonProgram Hash M _).run d).1 =
        .error (.text ("ref not found: " ++ name)) := by
      rcases ran : (onDaemonRefs (Refs.resolve P name) : DaemonProgram Hash M _).run d with ⟨found, d'⟩
      have looked : ((onDaemonRefs (Refs.resolve P name) : DaemonProgram Hash M _).run d).1 =
          .ok none := unresolved
      rw [ran] at looked
      obtain rfl : found = .ok none := looked
      exact congrArg Prod.fst (Program.run_bind_of_ok ran)
    have failed : ((Rollback.execute P hmac config { args with target := name } peerUid nowSeconds
        now).run d).1 = .error (.text ("ref not found: " ++ name)) :=
      Program.run_bind_of_error missing
    simp only [failure, failed]
    rfl
  | diffFrom files snapshot target =>
    have missing : lookUp P snapshot name = .error (.text ("ref not found: " ++ name)) := by
      unfold Unresolved at unresolved
      rw [lookUp, unresolved]
    simp only [failure, handleDiff, missing]
    rfl
  | diffTo files snapshot source found looked =>
    have missing : lookUp P snapshot name = .error (.text ("ref not found: " ++ name)) := by
      unfold Unresolved at unresolved
      rw [lookUp, unresolved]
    cases found with
    | none =>
      have first : lookUp P snapshot source = .error (.text ("ref not found: " ++ source)) := by
        rw [lookUp, looked]
      simp only [failure, handleDiff, first]
      rfl
    | some hash =>
      have first : lookUp P snapshot source = .ok hash := by rw [lookUp, looked]
      simp only [failure, handleDiff, first, missing]
      rfl

/-- The error reply to the request. -/
def reply (r : RefRequest P M) (name : String) : Option ErrorReply :=
  (r.failure hmac config name).map (mapAnyhowToResponseError P w)

/-- A branch name that is valid, and not there. -/
structure Unknown (r : RefRequest P M) (name : String) : Prop where
  valid : branchRejection name = none
  unresolved : r.Unresolved name

theorem reply_iff {r : RefRequest P M} {name : String} (unknown : r.Unknown name) :
    (∃ reply, r.reply w hmac config name = some reply ∧ reply.IsRefNotFound) ↔
      Quiet (r.blamed name) := by
  rw [reply, failure_eq hmac config unknown.unresolved, ← reply_refNotFound_iff P w]
  exact ⟨fun ⟨_, same, told⟩ => Option.some.inj same ▸ told, fun told => ⟨_, rfl, told⟩⟩

theorem same_reply_iff {r : RefRequest P M} {a b : String} (unknownA : r.Unknown a)
    (unknownB : r.Unknown b) :
    ((∃ reply, r.reply w hmac config a = some reply ∧ reply.IsRefNotFound) ∧
        ∃ reply, r.reply w hmac config b = some reply ∧ reply.IsRefNotFound) ↔
      Quiet (r.blamed a) ∧ Quiet (r.blamed b) :=
  and_congr (reply_iff w hmac config unknownA) (reply_iff w hmac config unknownB)

end RefRequest

end

/- A repository without refs. -/

def noRefs : RefsSnapshot Bytes := ⟨none, BTreeMap.empty⟩

/-- A diff of a name with itself. -/
def noRefsDiff : RefRequest Platform.sample Unit := .diffFrom (fun _ => none) noRefs "main"

theorem noRefs_unknown {name : String} (valid : branchRejection name = none)
    (short : name.utf8ByteSize ≠ 64) (other : name ≠ "HEAD") : noRefsDiff.Unknown name := by
  have notHash : Refs.isHexHash name = false := by
    simp [Refs.isHexHash, short]
  refine ⟨valid, ?_⟩
  show noRefs.resolve Platform.sample name = .ok none
  rw [RefsSnapshot.resolve, if_neg other, notHash]
  rfl

theorem feature_unknown : noRefsDiff.Unknown "feature" :=
  noRefs_unknown (by decide +kernel) (by decide +kernel) (by decide)

theorem shutdown_unknown : noRefsDiff.Unknown "daemon is shutting down" :=
  noRefs_unknown (by decide +kernel) (by decide +kernel) (by decide)

theorem release_unknown : noRefsDiff.Unknown "release" :=
  noRefs_unknown (by decide +kernel) (by decide +kernel) (by decide)

theorem feature_quiet : Quiet "feature" := by
  have lower : toAsciiLowercase "feature" = "feature" := by simp [toAsciiLowercase]
  constructor <;> simp only [lower, mentions, String.reduceToList] <;> decide

theorem release_quiet : Quiet "release" := by
  have lower : toAsciiLowercase "release" = "release" := by simp [toAsciiLowercase]
  constructor <;> simp only [lower, mentions, String.reduceToList] <;> decide

theorem same_reply_iff_release :
    (∃ reply, noRefsDiff.reply wordless (fun _ _ => []) Daemon.quiet "feature" = some reply ∧
        reply.IsRefNotFound) ∧
      ∃ reply, noRefsDiff.reply wordless (fun _ _ => []) Daemon.quiet "release" = some reply ∧
        reply.IsRefNotFound :=
  (RefRequest.same_reply_iff wordless (fun _ _ => []) Daemon.quiet feature_unknown
    release_unknown).mpr ⟨feature_quiet, release_quiet⟩

/-- A branch by the name of another failure is reported as that failure. -/
theorem shutdown_misreported :
    ¬ ∀ (r : RefRequest Platform.sample Unit) (a b : String), r.Unknown a → r.Unknown b →
      (∃ reply, r.reply wordless (fun _ _ => []) Daemon.quiet a = some reply ∧
          reply.IsRefNotFound) ∧
        ∃ reply, r.reply wordless (fun _ _ => []) Daemon.quiet b = some reply ∧
          reply.IsRefNotFound := by
  intro all
  have told := (all _ _ _ feature_unknown shutdown_unknown).2
  have quiet : Quiet "daemon is shutting down" :=
    (RefRequest.reply_iff wordless (fun _ _ => []) Daemon.quiet shutdown_unknown).mp told
  have lower : toAsciiLowercase "daemon is shutting down" = "daemon is shutting down" := by
    simp [toAsciiLowercase]
  have mentioned := quiet.shutdown
  rw [lower, mentions, decide_eq_true List.infix_rfl] at mentioned
  cases mentioned

end GitAgentic
