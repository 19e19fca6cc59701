import GitAgentic.Core.RefNames
import GitAgentic.Daemon.Deliverable
import GitAgentic.Daemon.Undisturbed
import GitAgentic.Sdk.Langgraph

/-! The checkpointer gives back the last checkpoint of a thread. A namespace is written into
the configs it returns, and nowhere else. -/
namespace GitAgentic

/- The branch. -/

namespace Refs

variable {Hash : Type} {P : Platform Hash}

theorem writeBranch_always (name : String) (hash : Hash) (t : FileTree TextFile) :
    (writeBranch P name hash).Always t (fun r t' => r = .ok () →
      t'.file? (heads ++ splitSlash name) = some (some (P.toHex hash ++ "\n"))) := by
  refine (Program.Safe.anything _ t).ends.mono (fun _ h => h) ?_
  rintro (_ | _) t' ⟨_, ended⟩
  · exact nofun
  · exact fun _ => FileTree.file?_eq_some_iff.mpr (writeBranch_replaced ended).2.file

theorem writeHeadSymbolic_always (name : String) (t : FileTree TextFile) :
    (writeHeadSymbolic name : RefsProgram Hash Unit).Always t (fun _ t' =>
      ∀ q, q ≠ headPath → q ≠ withTmp headPath → t'.file? q = t.file? q) := by
  unfold writeHeadSymbolic
  cases validateBranchName name with
  | error e => exact fun _ _ _ => rfl
  | ok u =>
    refine (writeAtomic_safe (Beside.refl _ t)).mono (fun _ _ => trivial) ?_
    rintro (_ | _) t' written
    · exact fun q _ other => file?_of_same_or_made (written q other)
    · exact fun q elsewhere other => file?_of_same_or_made (written.others q elsewhere other)

end Refs

section

variable {Hash M : Type} [DecidableEq Hash] {P : Platform Hash} {config : DaemonConfig Hash M}

theorem stageAndCommit_always (S : FsObjectStore Hash) (branch : String) (inputs : CommitInputs Hash)
    (now : Int) (r : Repository) :
    (stageAndCommitWithNow P S branch inputs now).Always r (fun result r' => ∀ out, result = .ok out →
      r'.agentic.file? (heads ++ splitSlash branch) = some (some (P.toHex out.commitHash ++ "\n"))) := by
  refine Program.Safe.bind ((Program.Safe.anything _ r).mono (fun _ h => h) ?_)
  rintro (e | hash) r' _
  · exact nofun
  refine Program.Safe.bind (onRefs_safe ((Refs.writeBranch_always branch hash r'.agentic).mono
    (fun _ h => h) ?_))
  rintro (e | _) agentic written
  · exact nofun
  · rintro out ⟨⟩
    exact written rfl

omit [DecidableEq Hash] in
theorem publishHead_always (branch : String) (needsHeadWrite : Bool) (d : Daemon M) :
    (Commit.publishHead branch needsHeadWrite : DaemonProgram Hash M Unit).Always d (fun _ d' =>
      d'.work = d.work ∧ ∀ q, q ≠ headPath → q ≠ withTmp headPath →
        d'.repo.agentic.file? q = d.repo.agentic.file? q) := by
  unfold Commit.publishHead
  cases needsHeadWrite with
  | false => exact ⟨rfl, fun _ _ _ => rfl⟩
  | true =>
    refine Program.Safe.bind (Program.Safe.attempt (Program.Safe.mapError (Program.Safe.focus
      (fun _ _ => rfl) (fun _ _ _ => rfl) (fun _ => rfl)
      (onRefs_safe ((Refs.writeHeadSymbolic_always branch d.repo.agentic).mono (fun _ h => h) ?_)))))
    exact fun _ agentic kept => ⟨rfl, kept⟩

theorem branch_ne_head {branch : String} (valid : branchRejection branch = none) :
    heads ++ splitSlash branch ≠ headPath ∧ heads ++ splitSlash branch ≠ withTmp headPath := by
  constructor
  · intro same
    exact absurd (congrArg List.head? same) (by simp [heads, headPath])
  · obtain ⟨dir, last, tail, tmp⟩ := Refs.withTmp_tmp headPath
    rw [tail]
    exact Refs.branch_ne_tmp valid tmp

theorem Commit.execute_always {d : Daemon M} {input : CommitInput} {branch : String}
    (named : input.branch = some branch) (valid : branchRejection branch = none)
    (alone : input.noMemory = true) (peerUid : Option UInt32)
    (fingerprints : List (Except (DaemonError Hash) Bytes)) (now : Int) :
    (Commit.executeWithNow P config input peerUid fingerprints now).Always d (fun r d' =>
      d'.work = d.work ∧ ∀ out, r = .ok out → ∃ hash, out.commitHash = P.toHex hash ∧
        d'.repo.agentic.file? (heads ++ splitSlash branch) = some (some (P.toHex hash ++ "\n"))) := by
  have readHead := (onDaemonRefs_still (Refs.readHead_still (P := P)) : (_ : DaemonProgram Hash M _).Still)
  refine Program.Safe.bind ((readHead.mapError.safe d).mono (fun _ _ => trivial) ?_)
  rintro (e | head) _ rfl
  · exact ⟨rfl, by rintro _ ⟨⟩⟩
  have same := Commit.branchOf_named named head
  have readBranch := (onDaemonRefs_still (Refs.readBranch_still (P := P) (Commit.branchOf input head)) :
    (_ : DaemonProgram Hash M _).Still)
  refine Program.Safe.bind ((readBranch.mapError.safe _).mono (fun _ _ => trivial) ?_)
  rintro (e | parent) _ rfl
  · exact ⟨rfl, by rintro _ ⟨⟩⟩
  rw [Commit.snapshotMemory, if_pos alone]
  refine Program.Safe.bind (Program.Safe.value ?_)
  cases Commit.fingerprintTools config.mcpServers fingerprints with
  | error e => exact ⟨rfl, by rintro _ ⟨⟩⟩
  | ok tools =>
    refine Program.Safe.bind (Program.Safe.value ?_)
    refine Program.Safe.bind (Program.Safe.mapError (Program.Safe.mapError (Program.Safe.focus
      (fun _ _ => rfl) (fun _ _ _ => rfl) (fun _ => rfl)
      ((stageAndCommit_always config.store _ _ now _).mono (fun _ h => h) ?_))))
    rintro (e | out) repo staged
    · exact ⟨rfl, by rintro _ ⟨⟩⟩
    · refine Program.Safe.bind ((publishHead_always _ head.isNone _).mono (fun _ h => h) ?_)
      rintro (e | _) d' ⟨work, kept⟩
      · exact ⟨work, by rintro _ ⟨⟩⟩
      · refine ⟨work, ?_⟩
        rintro _ ⟨⟩
        have held := staged out rfl
        rw [same] at held
        have apart := branch_ne_head valid
        exact ⟨out.commitHash, rfl, (kept _ apart.1 apart.2).trans held⟩

end

namespace AgenticCheckpointer

variable {C D : Type} (cp : AgenticCheckpointer C D)

/- Names. -/

theorem hexDigit_plain : ∀ n < 16, Json.hexDigit n ≠ '/' ∧ Json.hexDigit n ≠ '\\' ∧
    Json.hexDigit n ≠ '.' ∧ isControl (Json.hexDigit n) = false := by decide

theorem mem_hexdigest {thread : String} {c : Char} (mem : c ∈ (cp.hexdigest thread).toList) :
    c ≠ '/' ∧ c ≠ '\\' ∧ c ≠ '.' ∧ isControl c = false := by
  rw [hexdigest, String.toList_ofList] at mem
  obtain ⟨b, _, hb⟩ := List.mem_flatMap.mp mem
  have size := b.toNat_lt
  simp only [Platform.hexByte, List.mem_cons, List.not_mem_nil, or_false] at hb
  rcases hb with rfl | rfl
  · exact hexDigit_plain _ (by omega)
  · exact hexDigit_plain _ (by omega)

theorem hexdigest_ne_empty (thread : String) : cp.hexdigest thread ≠ "" := by
  intro empty
  have length : (cp.hexdigest thread).toList.length = 16 := by
    have two : ∀ b : UInt8, (Platform.hexByte b).length = 2 := fun _ => rfl
    rw [hexdigest, String.toList_ofList, List.length_flatMap]
    simp [two]
  rw [empty] at length
  cases length

theorem dot_not_mem_hexdigest (thread : String) : '.' ∉ (cp.hexdigest thread).toList :=
  fun mem => (cp.mem_hexdigest mem).2.2.1 rfl

theorem hexdigest_no_dots (thread : String) :
    cp.hexdigest thread ≠ "." ∧ cp.hexdigest thread ≠ ".." := by
  have noDot := cp.dot_not_mem_hexdigest thread
  constructor <;> intro same <;> rw [same] at noDot <;> exact noDot (by decide)

theorem componentRejection_hexdigest (thread : String) :
    componentRejection (cp.hexdigest thread) = none := by
  have tmp : endsWith ".tmp" (cp.hexdigest thread) = false := by
    rw [endsWith, Bool.eq_false_iff]
    intro suffix
    exact cp.dot_not_mem_hexdigest thread ((List.isSuffixOf_iff_suffix.mp suffix).subset (by decide))
  rw [componentRejection, if_neg (cp.hexdigest_ne_empty thread),
    if_neg (not_or.mpr (cp.hexdigest_no_dots thread)), tmp]
  rfl

theorem splitSlash_branch (thread : String) :
    splitSlash (cp.branchForThread thread) = ["langgraph", cp.hexdigest thread] := by
  have joined : cp.branchForThread thread = joinSlash ["langgraph", cp.hexdigest thread] := by
    simp [joinSlash, branchForThread, ← String.toList_inj, List.intercalate]
  rw [joined]
  refine splitSlash_joinSlash (List.cons_ne_nil _ _) (fun part mem => ?_)
  rcases List.mem_cons.mp mem with rfl | mem
  · decide
  · rw [List.mem_singleton.mp mem]
    exact fun slash => (cp.mem_hexdigest slash).1 rfl

theorem branchForThread_valid (thread : String) :
    branchRejection (cp.branchForThread thread) = none := by
  have chars : ∀ c ∈ (cp.branchForThread thread).toList, c ≠ '\\' ∧ isControl c = false := by
    rw [branchForThread, String.toList_append, List.forall_mem_append]
    refine ⟨by simp [isControl], fun c mem => ?_⟩
    have plain := cp.mem_hexdigest mem
    exact ⟨plain.2.1, plain.2.2.2⟩
  have long : ∀ short : String, short.toList.length < 10 → cp.branchForThread thread ≠ short := by
    rintro short bound rfl
    rw [branchForThread, String.toList_append, List.length_append] at bound
    have ten : "langgraph/".toList.length = 10 := by decide
    omega
  have noBackslash : (cp.branchForThread thread).toList.contains '\\' = false := by
    rw [List.contains_eq_mem, decide_eq_false_iff_not]
    exact fun mem => (chars _ mem).1 rfl
  have noControl : (cp.branchForThread thread).toList.any isControl = false := by
    rw [List.any_eq_false]
    exact fun c mem => by simp [(chars c mem).2]
  have parts : (splitSlash (cp.branchForThread thread)).findSome? componentRejection = none := by
    rw [splitSlash_branch, List.findSome?_cons, List.findSome?_cons, cp.componentRejection_hexdigest]
    decide
  have normal : (pathComponents (cp.branchForThread thread)).any (fun c => !c.isNormal) = false := by
    have part : Component.ofPart (cp.hexdigest thread) = some (.normal (cp.hexdigest thread)) :=
      (if_neg (not_or.mpr ⟨cp.hexdigest_ne_empty thread, (cp.hexdigest_no_dots thread).1⟩)).trans
        (if_neg (cp.hexdigest_no_dots thread).2)
    rw [pathComponents, splitSlash_branch]
    dsimp only
    rw [List.filterMap_cons, part]
    simp [Component.ofPart, Component.isNormal]
  rw [branchRejection, if_neg (long "" (by decide)), if_neg (long "HEAD" (by decide)), noBackslash,
    noControl, parts, normal]
  rfl

/- The file. -/

theorem writeAndReplace_always {tmp path : TreePath} {body : String} (t : FileTree Bytes) :
    (writeAndReplace tmp path body).Always t (fun r t' => r = .ok () →
      t'.file? path = some (utf8 body.toList)) := by
  refine Program.Safe.bind (FileTree.perform_safe _ trivial (fun u written => ?_) (fun _ => nofun))
  refine FileTree.perform_safe _ trivial (fun v renamed => ?_) (fun _ => nofun)
  obtain ⟨_, put⟩ := FileTree.write_node? written
  obtain ⟨c, held, _, moved⟩ := FileTree.rename_node? renamed
  have content : c = utf8 body.toList := by
    have node := FileTree.file?_eq_some_iff.mp held
    rw [put, if_pos rfl] at node
    cases node
    rfl
  intro _
  rw [FileTree.file?_eq_some_iff, moved, if_pos rfl, content]

theorem atomicWriteText_always {path : TreePath} {body suffix : String} (t : FileTree Bytes) :
    (atomicWriteText path body suffix).Always t (fun r t' => r = .ok () →
      t'.file? path = some (utf8 body.toList)) := by
  refine Program.Safe.bind ((Program.Safe.anything _ t).mono (fun _ h => h) ?_)
  rintro (_ | _) u _
  · exact nofun
  refine Program.Safe.bind ((Program.Safe.anything _ u).mono (fun _ h => h) ?_)
  rintro (_ | _) v _
  · exact nofun
  refine Program.Safe.bind (Program.Safe.attempt ((writeAndReplace_always v).mono (fun _ h => h) ?_))
  rintro (e | _) x written
  · refine Program.Safe.bind ((Program.Safe.anything _ x).mono (fun _ h => h) ?_)
    rintro (_ | _) y _
    · exact nofun
    · exact nofun
  · exact written

/- One put. -/

section

variable {Hash M : Type} [DecidableEq Hash] {P : Platform Hash} {hmac : Hmac}
  {config : DaemonConfig Hash M} {words : Words}

/-- The working directory and the branch as a request leaves them that commits. -/
def Committed (P : Platform Hash) (branch : String) (d : Daemon M) (commitHash : String)
    (d' : Daemon M) : Prop :=
  d'.work = d.work ∧ ∃ hash, commitHash = P.toHex hash ∧
    d'.repo.agentic.file? (heads ++ splitSlash branch) = some (some (P.toHex hash ++ "\n"))

theorem dispatch_commit_always {input : CommitInput} {branch : String} (d : Daemon M)
    (named : input.branch = some branch) (valid : branchRejection branch = none)
    (alone : input.noMemory = true) (moment : Moment Hash) :
    (dispatch P hmac config moment (.commit input)).Always d (fun r d' => ∀ out,
      r = .ok (.commit out) → Committed P branch d out.commitHash d') := by
  have shutdown : ∀ cancelled, (checkShutdown cancelled : DaemonProgram Hash M Unit) = .done (.ok ()) ∨
      (checkShutdown cancelled : DaemonProgram Hash M Unit) = .done (.error shuttingDown) := by
    intro cancelled
    cases cancelled with
    | false => exact Or.inl rfl
    | true => exact Or.inr rfl
  show (Program.bind (checkShutdown _) _).Always d _
  rcases shutdown moment.cancelledBefore with goes | goes
  · rw [goes]
    show (inQueue moment.slot _).Always d _
    unfold inQueue
    cases moment.slot with
    | false => exact nofun
    | true =>
      show (Program.bind (checkShutdown _) _).Always d _
      rcases shutdown moment.cancelledMeanwhile with goes | goes
      · rw [goes]
        show (Program.bind (Commit.executeWithNow P config input moment.peerUid moment.fingerprints
          moment.now) _).Always d _
        refine Program.Safe.bind ((Commit.execute_always named valid alone moment.peerUid
          moment.fingerprints moment.now).mono (fun _ h => h) ?_)
        rintro (e | out) d' ⟨work, committed⟩
        · exact nofun
        · rintro _ ⟨⟩
          exact ⟨work, committed out rfl⟩
      · rw [goes]
        exact nofun
  · rw [goes]
    exact nofun

theorem commit_always {input : CommitInput} {branch : String} (d : Daemon M)
    (named : input.branch = some branch) (valid : branchRejection branch = none)
    (alone : input.noMemory = true) (moment : Moment Hash) :
    (commit P hmac config words moment input).Always d (fun r d' => ∀ commitHash,
      r = .ok commitHash → Committed P branch d commitHash d') := by
  have answered : (answer P hmac config moment words (.commit input)).Always d (fun r d' => ∀ out,
      r = .ok (.commit out) → Committed P branch d out.commitHash d') := by
    unfold answer
    cases moment.granted with
    | false => exact nofun
    | true =>
      refine Program.Safe.bind (Program.Safe.attempt
        ((dispatch_commit_always d named valid alone moment).mono (fun _ h => h) ?_))
      rintro (e | response) d' committed
      · exact nofun
      · rintro out ⟨⟩
        exact committed out rfl
  have requested : (request P hmac config words moment (.commit input)).Always d (fun r d' => ∀ out,
      r = .ok (.commit out) → Committed P branch d out.commitHash d') := by
    refine Program.Safe.bind (Program.Safe.mapError (answered.mono (fun _ h => h) ?_))
    rintro (e | response) d' committed
    · exact nofun
    · cases response with
      | commit made =>
        rintro out ⟨⟩
        exact committed made rfl
      | _ => exact nofun
  refine Program.Safe.bind (requested.mono (fun _ h => h) ?_)
  rintro (e | response) d' committed
  · exact nofun
  · cases response with
    | commit out =>
      rintro _ ⟨⟩
      exact committed out rfl
    | _ => exact nofun

/-- The checkpoint is in the file, and the hash of its commit in the branch. -/
structure Saved (P : Platform Hash) (thread : String) (checkpoint : C) (metadata : D) (hash : Hash)
    (d : Daemon M) : Prop where
  file : d.work.file? (cp.onDisk thread) =
    some (utf8 (cp.json.dumps (cp.serialiseEnvelope checkpoint metadata thread)).toList)
  branch : d.repo.agentic.file? (heads ++ splitSlash (cp.branchForThread thread)) =
    some (some (P.toHex hash ++ "\n"))

theorem commitInput_branch (thread envelopeJson : String) (metadata : D) :
    (cp.commitInput thread envelopeJson metadata).branch = some (cp.branchForThread thread) := rfl

theorem commitInput_noMemory (thread envelopeJson : String) (metadata : D) :
    (cp.commitInput thread envelopeJson metadata).noMemory = true := rfl

theorem put_always (moment : Moment Hash) (suffix : String) (asked : RunnableConfig) (checkpoint : C)
    (metadata : D) (d : Daemon M) :
    (cp.put P hmac config words moment suffix asked checkpoint metadata).Always d (fun r d' =>
      ∀ out, r = .ok out → ∃ thread hash, asked.threadId = some thread ∧
        out = { threadId := some thread, checkpointNs := some asked.ns, checkpointId := some (P.toHex hash) } ∧
        cp.Saved P thread checkpoint metadata hash d') := by
  cases given : asked.threadId with
  | none =>
    have raised : requireThreadId asked = .error (.valueError
        "AgenticCheckpointer requires config['configurable']['thread_id']") := by
      rw [requireThreadId, given]
    rw [put, raised]
    exact nofun
  | some thread =>
    have known : requireThreadId asked = .ok thread := by rw [requireThreadId, given]
    rw [put, known, Program.ofExcept_ok_bind]
    generalize place : cp.onDisk thread = path
    refine Program.Safe.bind ((Program.Safe.anything _ d).mono (fun _ h => h) ?_)
    rintro (e | _) d₁ _
    · exact nofun
    refine Program.Safe.bind (Program.Safe.focus (fun _ _ => rfl) (fun _ _ _ => rfl) (fun _ => rfl)
      ((atomicWriteText_always d₁.work).mono (fun _ h => h) ?_))
    rintro (e | _) work written
    · exact nofun
    refine Program.Safe.bind ((commit_always _ (cp.commitInput_branch _ _ _)
      (cp.branchForThread_valid thread) (cp.commitInput_noMemory _ _ _) moment).mono (fun _ h => h) ?_)
    rintro (e | commitHash) d₂ committed
    · exact nofun
    rintro out ⟨⟩
    obtain ⟨same, hash, rfl, branch⟩ := committed commitHash rfl
    refine ⟨thread, hash, rfl, rfl, ?_, branch⟩
    rw [same, place]
    exact written rfl

/- What is read back. -/

theorem distinct_typedJson (typed : String × Bytes) : (cp.typedJson typed).DistinctKeys := by
  simp [typedJson, Json.DistinctKeys, Json.DistinctMembers]

theorem distinct_serialiseEnvelope (checkpoint : C) (metadata : D) (thread : String) :
    (cp.serialiseEnvelope checkpoint metadata thread).DistinctKeys := by
  simp [serialiseEnvelope, Json.DistinctKeys, Json.DistinctMembers, distinct_typedJson]

theorem loadTyped_typedJson {α : Type} (serde : Serde α) (a : α) {envelope : Json} {name : String}
    (held : envelope.get? name = some (cp.typedJson (serde.dumpsTyped a))) :
    cp.loadTyped serde envelope name = .ok a := by
  rw [loadTyped, held]
  simp [typedJson, Json.get?, Json.asStr?, cp.codec.decode_encode, serde.loads_dumps]

theorem deserialise_serialise (checkpoint : C) (metadata : D) (thread : String) :
    cp.deserialiseEnvelope (cp.serialiseEnvelope checkpoint metadata thread) =
      .ok (checkpoint, metadata) := by
  have version : ((cp.serialiseEnvelope checkpoint metadata thread).get? "v").any isVersion = true := rfl
  have first : cp.loadTyped cp.checkpoints (cp.serialiseEnvelope checkpoint metadata thread)
      "checkpoint" = .ok checkpoint := cp.loadTyped_typedJson _ _ rfl
  have second : cp.loadTyped cp.metadatas (cp.serialiseEnvelope checkpoint metadata thread)
      "metadata" = .ok metadata := cp.loadTyped_typedJson _ _ rfl
  rw [serialiseEnvelope] at version first second ⊢
  rw [deserialiseEnvelope, if_pos version, first, second]
  rfl

def refReply (P : Platform Hash) (name : String) : Option Hash → Response
  | some hash => .resolveRef (P.toHex hash)
  | none => .notFound "ref_not_found" ("ref not found: " ++ name)

theorem run_dispatch_resolveRef {d : Daemon M} (moment : Moment Hash) {name : String}
    {found : Option Hash}
    (resolved : (Refs.resolve P name).run d.repo.agentic = (.ok found, d.repo.agentic)) :
    (dispatch P hmac config moment (.resolveRef name)).run d = (.ok (refReply P name found), d) := by
  have onRefs : (withContext ("resolving ref " ++ name) (onDaemonRefs (Refs.resolve P name)) :
      DaemonProgram Hash M _).run d = (.ok found, d) := by
    rw [withContext, Program.run_mapError, run_onDaemonRefs, resolved]
    rfl
  refine (Program.run_bind_of_ok onRefs).trans ?_
  cases found with
  | some hash => rfl
  | none => rfl

theorem run_answer {d d' : Daemon M} {moment : Moment Hash} (granted : moment.granted = true)
    {payload : Wire.Request} {response : Response}
    (dispatched : (dispatch P hmac config moment payload).run d = (.ok response, d')) :
    (answer P hmac config moment words payload).run d = (.ok response, d') := by
  rw [answer, if_pos granted]
  have attempted : ((dispatch P hmac config moment payload).attempt :
      DaemonProgram Hash M (Except (DaemonError Hash) Response)).run d = (.ok (.ok response), d') := by
    rw [Program.run_attempt, dispatched]
  exact Program.run_bind_of_ok attempted

theorem run_request {d d' : Daemon M} {moment : Moment Hash} (granted : moment.granted = true)
    {payload : Wire.Request} {response : Response}
    (dispatched : (dispatch P hmac config moment payload).run d = (.ok response, d')) :
    (request P hmac config words moment payload).run d = (match response with
      | .error reply => .error (.agentic reply)
      | _ => .ok response, d') := by
  have exchanged : ((answer P hmac config moment words payload).mapError
      (fun _ => SdkError.malformed)).run d = (.ok response, d') := by
    rw [Program.run_mapError, run_answer granted dispatched]
    rfl
  refine (Program.run_bind_of_ok exchanged).trans ?_
  cases response with
  | error reply => rfl
  | _ => rfl

theorem run_resolve {d : Daemon M} {moment : Moment Hash} (granted : moment.granted = true)
    {name : String} {found : Option Hash}
    (resolved : (Refs.resolve P name).run d.repo.agentic = (.ok found, d.repo.agentic)) :
    (resolve P hmac config words moment name).run d = (.ok (found.map P.toHex), d) := by
  have requested : (request P hmac config words moment (.resolveRef name)).run d = _ :=
    run_request granted (run_dispatch_resolveRef moment resolved)
  show (Program.bind (request P hmac config words moment (.resolveRef name)).attempt _).run d = _
  rw [Program.run_bind, Program.run_attempt, requested]
  cases found with
  | some hash => rfl
  | none => rfl

theorem branchForThread_plain (thread : String) :
    cp.branchForThread thread ≠ "HEAD" ∧ Refs.isHexHash (cp.branchForThread thread) = false := by
  constructor
  · intro head
    have valid := cp.branchForThread_valid thread
    rw [head] at valid
    cases valid
  · have first : ("langgraph/".toList.all (fun c => (Refs.hexValue c).isSome)) = false := by decide
    rw [Refs.isHexHash, branchForThread, String.toList_append, List.all_append, first, Bool.false_and,
      Bool.and_false]

theorem run_onMirror {α : Type} (p : MirrorProgram α) (d : Daemon M) :
    (onMirror p : SdkProgram M α).run d = ((p.run d.work).1, { d with work := (p.run d.work).2 }) := by
  rw [onMirror, Program.run_focus]
  all_goals intros; rfl

theorem run_getTuple_fresh {d : Daemon M} {moment : Moment Hash} {thread : String}
    {asked : RunnableConfig} (granted : moment.granted = true) (given : asked.threadId = some thread)
    (fresh : d.repo.agentic.node? (heads ++ splitSlash (cp.branchForThread thread)) = none) :
    (cp.getTuple P hmac config words moment asked).run d = (.ok none, d) := by
  have known : requireThreadId asked = .ok thread := by rw [requireThreadId, given]
  obtain ⟨other, plain⟩ := cp.branchForThread_plain thread
  have absent : (Refs.readBranch P (cp.branchForThread thread)).run d.repo.agentic =
      (.ok none, d.repo.agentic) :=
    Refs.run_readBranch_of_absent (cp.branchForThread_valid thread) fresh
  have resolved := (Refs.run_resolve_branch other plain).trans absent
  rw [getTuple, known]
  exact Program.run_bind_of_ok (run_resolve granted resolved)

theorem run_getTuple_saved {d : Daemon M} {moment : Moment Hash} {thread : String}
    {asked : RunnableConfig} {checkpoint : C} {metadata : D} {hash : Hash}
    (granted : moment.granted = true) (given : asked.threadId = some thread)
    (latest : ∀ id ∈ asked.checkpointId, id = "" ∨ id = P.toHex hash)
    (saved : cp.Saved P thread checkpoint metadata hash d) :
    (cp.getTuple P hmac config words moment asked).run d = (.ok (some {
      config := { threadId := some thread, checkpointNs := some asked.ns, checkpointId := some (P.toHex hash) }
      checkpoint, metadata }), d) := by
  have known : requireThreadId asked = .ok thread := by rw [requireThreadId, given]
  obtain ⟨other, plain⟩ := cp.branchForThread_plain thread
  have tip := Refs.run_readBranch_of_file (cp.branchForThread_valid thread) saved.branch
  have resolved := (Refs.run_resolve_branch other plain).trans tip
  have asksHead : asked.checkpointId.any (fun id => id ≠ "" ∧ id ≠ P.toHex hash) = false := by
    cases id : asked.checkpointId with
    | none => rfl
    | some id' =>
      have named := latest id' id
      simpa [or_iff_not_imp_left] using named
  have there : (onMirror (Program.read (fun t => .ok (t.node? (cp.onDisk thread)).isSome) .os) :
      SdkProgram M Bool).run d = (.ok true, d) := by
    rw [run_onMirror, Program.run_read, FileTree.file?_eq_some_iff.mp saved.file]
    rfl
  have text : (onMirror (Program.read (fun t => readText t (cp.onDisk thread)) .os) :
      SdkProgram M String).run d =
        (.ok (cp.json.dumps (cp.serialiseEnvelope checkpoint metadata thread)), d) := by
    rw [run_onMirror, Program.run_read, readText, saved.file]
    dsimp only
    rw [fromUtf8_utf8]
  rw [getTuple, known]
  refine (Program.run_bind_of_ok (run_resolve granted resolved)).trans ?_
  dsimp only [Option.map_some]
  rw [asksHead]
  refine (Program.run_bind_of_ok there).trans ((Program.run_bind_of_ok text).trans ?_)
  rw [cp.json.loads_dumps _ (cp.distinct_serialiseEnvelope checkpoint metadata thread)]
  show (Program.bind (Program.ofExcept (cp.deserialiseEnvelope _)) _).run d = _
  rw [deserialise_serialise]
  rfl

end

/- Runs. -/

/-- A put that succeeded: what it was given, and the config it returned. -/
structure Put (C D : Type) where
  asked : RunnableConfig
  checkpoint : C
  metadata : D
  returned : RunnableConfig

section

variable {Hash M : Type} [DecidableEq Hash] (P : Platform Hash) (hmac : Hmac)
  (config : DaemonConfig Hash M) (words : Words)

/-- Puts on one thread, one after another. Single operations may fail in each of them, as long
as it succeeds. -/
inductive PutRun (thread : String) (d : Daemon M) : List (Put C D) → Daemon M → Prop where
  | start : PutRun thread d [] d
  | put {puts d₁ d₂} (p : Put C D) (moment : Moment Hash) (suffix : String) :
      PutRun thread d puts d₁ → p.asked.threadId = some thread →
      Program.Reaches (cp.put P hmac config words moment suffix p.asked p.checkpoint p.metadata, d₁)
        (.done (.ok p.returned), d₂) → PutRun thread d (puts ++ [p]) d₂

variable {P hmac config words}

theorem saved_of_reaches {d d' : Daemon M} {moment : Moment Hash} {suffix : String} {p : Put C D}
    {thread : String} (given : p.asked.threadId = some thread)
    (ended : Program.Reaches (cp.put P hmac config words moment suffix p.asked p.checkpoint p.metadata, d)
      (.done (.ok p.returned), d')) :
    ∃ hash, p.returned = { threadId := some thread, checkpointNs := some p.asked.ns, checkpointId := some (P.toHex hash) } ∧
      cp.Saved P thread p.checkpoint p.metadata hash d' := by
  obtain ⟨thread', hash, given', returned, saved⟩ :=
    (cp.put_always moment suffix p.asked p.checkpoint p.metadata d).stopped ended p.returned rfl
  rw [given] at given'
  cases given'
  exact ⟨hash, returned, saved⟩

/-- The checkpointer gives back the last checkpoint that was put on the thread, under whatever
namespace it was put and is asked for. -/
theorem getTuple_last {thread : String} {puts : List (Put C D)} {d d' : Daemon M} {moment : Moment Hash}
    (fresh : d.repo.agentic.node? (heads ++ splitSlash (cp.branchForThread thread)) = none)
    (run : cp.PutRun P hmac config words thread d puts d') (granted : moment.granted = true)
    (ns : Option String) :
    (cp.getTuple P hmac config words moment
        { threadId := some thread, checkpointNs := ns, checkpointId := none }).run d' =
      (.ok (puts.getLast?.map (fun p => {
        config := { p.returned with checkpointNs := some (ns.getD "") }
        checkpoint := p.checkpoint
        metadata := p.metadata })), d') := by
  cases run with
  | start => exact cp.run_getTuple_fresh granted rfl fresh
  | put p moment' suffix _ given ended =>
    obtain ⟨hash, returned, saved⟩ := cp.saved_of_reaches given ended
    rw [List.getLast?_concat, Option.map_some, returned]
    exact cp.run_getTuple_saved granted rfl nofun saved

end

/- Two puts on a daemon that has just started, under two namespaces. -/

section

variable {cp}

theorem run_put {d d' : Daemon Unit} {asked : RunnableConfig} {thread suffix : String} {checkpoint : C}
    {metadata : D} {work : FileTree Bytes} {out : CommitOutput} (given : asked.threadId = some thread)
    (mirrored : ((FileTree.createDirAll .os [] (cp.onDisk thread).dropLast).bind (fun _ =>
      atomicWriteText (cp.onDisk thread)
        (cp.json.dumps (cp.serialiseEnvelope checkpoint metadata thread)) suffix)).run d.work = (.ok (), work))
    (committed : (Commit.executeWithNow Platform.sample Daemon.quiet (cp.commitInput thread
      (cp.json.dumps (cp.serialiseEnvelope checkpoint metadata thread)) metadata) none [] 0).run
        { d with work } = (.ok out, d')) :
    (cp.put Platform.sample (fun _ _ => []) Daemon.quiet wordless idle suffix asked checkpoint metadata).run d =
      (.ok { threadId := some thread, checkpointNs := some asked.ns, checkpointId := some out.commitHash }, d') := by
  have known : requireThreadId asked = .ok thread := by rw [requireThreadId, given]
  obtain ⟨_, between, made, written⟩ := Program.run_bind_eq_ok_iff.mp mirrored
  have made' : (onMirror (FileTree.createDirAll .os [] (cp.onDisk thread).dropLast) : SdkProgram Unit Unit).run d =
      (.ok (), { d with work := between }) := by
    rw [run_onMirror, made]
  have written' : (onMirror (atomicWriteText (cp.onDisk thread)
      (cp.json.dumps (cp.serialiseEnvelope checkpoint metadata thread)) suffix) : SdkProgram Unit Unit).run
        { d with work := between } = (.ok (), { d with work }) := by
    rw [run_onMirror, written]
  have dispatched : (dispatch Platform.sample (fun _ _ => []) Daemon.quiet idle (.commit (cp.commitInput thread
      (cp.json.dumps (cp.serialiseEnvelope checkpoint metadata thread)) metadata))).run { d with work } =
        (.ok (.commit out), d') := (Program.run_bind_of_ok committed).trans rfl
  have requested : (request Platform.sample (fun _ _ => []) Daemon.quiet wordless idle (.commit
      (cp.commitInput thread (cp.json.dumps (cp.serialiseEnvelope checkpoint metadata thread)) metadata))).run
        { d with work } = _ := run_request rfl dispatched
  have hash : (commit Platform.sample (fun _ _ => []) Daemon.quiet wordless idle (cp.commitInput thread
      (cp.json.dumps (cp.serialiseEnvelope checkpoint metadata thread)) metadata)).run { d with work } =
        (.ok out.commitHash, d') := (Program.run_bind_of_ok requested).trans rfl
  rw [put, known, Program.ofExcept_ok_bind]
  generalize cp.onDisk thread = path at made' written' ⊢
  refine (Program.run_bind_of_ok made').trans ?_
  refine (Program.run_bind_of_ok written').trans ?_
  exact (Program.run_bind_of_ok hash).trans rfl

end

def boolSerde : Serde Bool where
  dumpsTyped b := ("bool", [if b then 1 else 0])
  loadsTyped typed := match typed with
    | (_, [byte]) => some (byte = 1)
    | _ => none
  loads_dumps b := by cases b <;> rfl

def unitSerde : Serde Unit where
  dumpsTyped _ := ("null", [])
  loadsTyped _ := some ()
  loads_dumps _ := rfl

/-- Checkpoints are truth values, every digest is zero. -/
def sample : AgenticCheckpointer Bool Unit where
  blake2b := fun _ => Vector.replicate 8 0
  json := {
    dumps := Platform.sample.toText
    loads := fun text => Json.sampleFromSlice (utf8 text.toList)
    loads_dumps := fun j _ => by
      rw [Platform.toText, String.toList_ofList]
      exact Json.sampleFromSlice_text j }
  codec := Daemon.hexCodec
  checkpoints := boolSerde
  metadatas := unitSerde
  step := fun _ => "?"
  source := fun _ => "?"

def sampleText (checkpoint : Bool) : String :=
  sample.json.dumps (sample.serialiseEnvelope checkpoint () "t")

def sampleMirror (checkpoint : Bool) : MirrorProgram Unit :=
  (FileTree.createDirAll .os [] (sample.onDisk "t").dropLast).bind
    (fun _ => atomicWriteText (sample.onDisk "t") (sampleText checkpoint) "x")

def sampleHash (checkpoint : Bool) (parent : Option Bytes) : Bytes :=
  (Object.commit ((Commit.assembleInputs (sample.commitInput "t" (sampleText checkpoint) ()) parent none none
    BTreeMap.empty none []).commit Platform.sample 0)).hash Platform.sample

def work₁ : FileTree Bytes := ((sampleMirror true).run FileTree.empty).2

def refs₁ : FileTree TextFile :=
  ((Refs.writeHeadSymbolic (sample.branchForThread "t") : Refs.RefsProgram Bytes Unit).run
    ((Refs.writeBranch Platform.sample (sample.branchForThread "t") (sampleHash true none)).run Refs.opened).2).2

def asked (ns : String) : RunnableConfig := { threadId := some "t", checkpointNs := some ns, checkpointId := none }

def written₁ : FileTree TextFile :=
  ((Refs.writeBranch Platform.sample (sample.branchForThread "t") (sampleHash true none)).run Refs.opened).2

theorem moved₁ : (Refs.writeBranch Platform.sample (sample.branchForThread "t") (sampleHash true none)).run
    Refs.opened = (.ok (), written₁) := Prod.ext (by decide +kernel) rfl

theorem headed₁ : (Refs.writeHeadSymbolic (sample.branchForThread "t") : Refs.RefsProgram Bytes Unit).run
    written₁ = (.ok (), refs₁) := Prod.ext (by decide +kernel) rfl

theorem readHead₁ : (Refs.readHead Platform.sample).run refs₁ =
    (.ok (some (.branch (sample.branchForThread "t"))), refs₁) :=
  Prod.ext (by decide +kernel) (Refs.readHead_still.run _)

theorem readBranch₁ : (Refs.readBranch Platform.sample (sample.branchForThread "t")).run refs₁ =
    (.ok (some (sampleHash true none)), refs₁) := by
  have branch : Program.Reaches (Refs.writeBranch Platform.sample (sample.branchForThread "t")
      (sampleHash true none), Refs.opened) (.done (.ok ()), written₁) :=
    Program.reaches_of_run moved₁
  have head : Program.Reaches ((Refs.writeHeadSymbolic (sample.branchForThread "t") :
      Refs.RefsProgram Bytes Unit), written₁) (.done (.ok ()), refs₁) :=
    Program.reaches_of_run headed₁
  obtain ⟨valid, held, _⟩ := Refs.held_after branch head
  exact Refs.run_readBranch_of_file valid held

theorem moved₂ : ((Refs.writeBranch Platform.sample (sample.branchForThread "t")
    (sampleHash false (some (sampleHash true none)))).run refs₁).1 = .ok () := by decide +kernel

theorem mirrored₁ : (sampleMirror true).run FileTree.empty = (.ok (), work₁) :=
  Prod.ext (by decide +kernel) rfl

theorem mirrored₂ : (sampleMirror false).run work₁ = (.ok (), ((sampleMirror false).run work₁).2) :=
  Prod.ext (by decide +kernel) rfl

def after₁ (objects : Files) : Daemon Unit :=
  { Daemon.start with
    repo := { objects, agentic := refs₁ }
    work := work₁ }

theorem first_put : ∃ objects returned, (sample.put Platform.sample (fun _ _ => []) Daemon.quiet wordless
    idle "x" (asked "a") true ()).run Daemon.start = (.ok returned, after₁ objects) := by
  have head : (Refs.readHead Platform.sample).run Refs.opened = (.ok none, Refs.opened) :=
    Prod.ext (by decide +kernel) (Refs.readHead_still.run _)
  have absent : (Refs.readBranch Platform.sample (sample.branchForThread "t")).run Refs.opened =
      (.ok none, Refs.opened) :=
    Prod.ext (by decide +kernel) ((Refs.readBranch_still _).run _)
  have named := Commit.branchOf_named (sample.commitInput_branch "t" (sampleText true) ())
    (none : Option (HeadRef Bytes))
  obtain ⟨objects, committed⟩ := Daemon.run_commit_quiet (d := { Daemon.start with work := work₁ })
    named rfl head absent written₁ moved₁
  exact ⟨objects, _, run_put rfl mirrored₁ committed⟩

theorem second_put (objects : Files) : ∃ d' returned, (sample.put Platform.sample (fun _ _ => [])
    Daemon.quiet wordless idle "x" (asked "b") false ()).run (after₁ objects) = (.ok returned, d') := by
  have named := Commit.branchOf_named (sample.commitInput_branch "t" (sampleText false) ())
    (some (HeadRef.branch (sample.branchForThread "t") : HeadRef Bytes))
  obtain ⟨objects', committed⟩ := Daemon.run_commit_quiet
    (d := { after₁ objects with work := ((sampleMirror false).run work₁).2 })
    named rfl readHead₁ readBranch₁ _ (Prod.ext moved₂ rfl)
  exact ⟨_, _, run_put rfl mirrored₂ committed⟩

/-- What was put under two namespaces. -/
def twoPuts (returned₁ returned₂ : RunnableConfig) : List (Put Bool Unit) :=
  [⟨asked "a", true, (), returned₁⟩, ⟨asked "b", false, (), returned₂⟩]

theorem two_puts {objects : Files} {returned₁ returned₂ : RunnableConfig} {d' : Daemon Unit}
    (first : (sample.put Platform.sample (fun _ _ => []) Daemon.quiet wordless idle "x" (asked "a") true
      ()).run Daemon.start = (.ok returned₁, after₁ objects))
    (second : (sample.put Platform.sample (fun _ _ => []) Daemon.quiet wordless idle "x" (asked "b") false
      ()).run (after₁ objects) = (.ok returned₂, d')) :
    sample.PutRun Platform.sample (fun _ _ => []) Daemon.quiet wordless "t" Daemon.start
      (twoPuts returned₁ returned₂) d' := by
  have before : sample.PutRun Platform.sample (fun _ _ => []) Daemon.quiet wordless "t" Daemon.start
      [⟨asked "a", true, (), returned₁⟩] (after₁ objects) :=
    .put ⟨asked "a", true, (), returned₁⟩ idle "x" .start rfl (Program.reaches_of_run first)
  exact .put ⟨asked "b", false, (), returned₂⟩ idle "x" before rfl (Program.reaches_of_run second)

theorem getTuple_last_two : ∃ returned₁ returned₂ d', sample.PutRun Platform.sample (fun _ _ => [])
      Daemon.quiet wordless "t" Daemon.start (twoPuts returned₁ returned₂) d' ∧
    (sample.getTuple Platform.sample (fun _ _ => []) Daemon.quiet wordless idle (asked "a")).run d' =
      (.ok (some {
        config := { returned₂ with checkpointNs := some "a" }
        checkpoint := false
        metadata := () }), d') := by
  obtain ⟨objects, returned₁, first⟩ := first_put
  obtain ⟨d', returned₂, second⟩ := second_put objects
  have run := two_puts first second
  exact ⟨returned₁, returned₂, d', run, sample.getTuple_last (by decide +kernel) run rfl (some "a")⟩

/-- Asked for the first namespace, the checkpointer gives back what was put under the second. -/
theorem namespaces_shared : ¬ ∀ puts d', sample.PutRun Platform.sample (fun _ _ => []) Daemon.quiet wordless "t"
      Daemon.start puts d' → ∀ ns,
    ((sample.getTuple Platform.sample (fun _ _ => []) Daemon.quiet wordless idle (asked ns)).run d').1.map
        (Option.map (fun found => (found.checkpoint, found.metadata))) =
      .ok ((puts.filter (fun p => p.asked.ns = ns)).getLast?.map (fun p => (p.checkpoint, p.metadata))) := by
  intro isolated
  obtain ⟨objects, returned₁, first⟩ := first_put
  obtain ⟨d', returned₂, second⟩ := second_put objects
  have own := isolated _ d' (two_puts first second) "a"
  obtain ⟨hash, _, saved⟩ := sample.saved_of_reaches (P := Platform.sample)
    (p := ⟨asked "b", false, (), returned₂⟩) rfl
    (Program.reaches_of_run second)
  rw [sample.run_getTuple_saved rfl rfl (by simp [asked]) saved] at own
  have mistaken : (some (false, ()) : Option (Bool × Unit)) = some (true, ()) := Except.ok.inj own
  cases mistaken

end AgenticCheckpointer

end GitAgentic
