import GitAgentic.Daemon.Wire

/-! What a request does while it holds the commit lock. -/
namespace GitAgentic

namespace Daemon

/-- A request once its moment has come: who sent it, what the servers answer, the clock. -/
inductive Operation (Hash : Type) where
  | commit (input : CommitInput) (peerUid : Option UInt32)
      (fingerprints : List (Except (DaemonError Hash) Bytes)) (now : Int)
  | rollback (args : RollbackArgs) (peerUid : Option UInt32) (nowSeconds : UInt64) (now : Int)
  | diff

variable {Hash M : Type}

def Operation.ofRequest (peerUid : Option UInt32)
    (fingerprints : List (Except (DaemonError Hash) Bytes)) (nowSeconds : UInt64) (now : Int) :
    Wire.Request → Option (Operation Hash)
  | .commit input => some (.commit input peerUid fingerprints now)
  | .rollback target dryRun acceptDataLoss approvalToken =>
    some (.rollback { target, dryRun, acceptDataLoss, approvalToken } peerUid nowSeconds now)
  | .diff _ _ => some .diff
  | .ping | .log _ | .resolveRef _ | .readObject _ => none

variable [DecidableEq Hash] (P : Platform Hash) (hmac : Hmac) (config : DaemonConfig Hash M)

/-- A diff takes its view of the refs under the lock and gives the lock back. -/
def Operation.program : Operation Hash → DaemonProgram Hash M Unit
  | .commit input peerUid fingerprints now => do
    let _ ← Commit.executeWithNow P config input peerUid fingerprints now
    return ()
  | .rollback args peerUid nowSeconds now => do
    let _ ← Rollback.execute P hmac config args peerUid nowSeconds now
    return ()
  | .diff => do
    let _ ← onDaemonRefs (Refs.snapshot P)
    return ()

omit [DecidableEq Hash] in
theorem Operation.diff_still : (do
    let _ ← onDaemonRefs (Refs.snapshot P)
    return () : DaemonProgram Hash M Unit).Still :=
  Program.Still.bind (onDaemonRefs_still Refs.snapshot_still) (fun _ => trivial)

end Daemon

end GitAgentic
