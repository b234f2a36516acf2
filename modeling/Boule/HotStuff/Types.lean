import Boule.HotStuff.State

/-! The events a replica consumes and the actions it emits. -/
namespace Boule

/-- A verified vote with its BLS partial signature. -/
structure VoteVariant where
  signed : Verified (Signed Vote)
  bls : BlsPartialSig
  deriving DecidableEq

inductive Event where
  | proposalReceived (verified : Verified (Signed Proposal))
  | voteReceived (variant : VoteVariant)
  | newViewReceived (verified : Verified (Signed NewView))
  | pacemakerAdvance (view : ℕ)
  deriving DecidableEq

inductive StateUpdate where
  | votedInView (view : ℕ)
  | locked (locked : Locked)
  | highQc (qc : QuorumCertificate)
  | proposedInView (view : ℕ)
  deriving DecidableEq

inductive BlockSyncReason where
  | unknownParentOnProposal
  | stillParkedOnPacemakerAdvance
  | unknownHighQcOnNewView
  | retryTimerTick
  deriving DecidableEq

namespace BlockSyncReason

def asStr : BlockSyncReason → String
  | unknownParentOnProposal => "unknown_parent_on_proposal"
  | stillParkedOnPacemakerAdvance => "still_parked_on_pacemaker_advance"
  | unknownHighQcOnNewView => "unknown_high_qc_on_new_view"
  | retryTimerTick => "retry_timer_tick"

end BlockSyncReason

inductive Action where
  | broadcast (msg : ConsensusMsg)
  | persist (update : StateUpdate)
  | commit (block : Block)
  | requestBlock (hash : BlockHash) (peer : NodeId) (expectedHeight : ℕ)
      (reason : BlockSyncReason)
  | equivocationEvidence (voter : ValidatorId) (view : ℕ) (blockA blockB : BlockHash)
  | proposalEquivocationEvidence (leader : ValidatorId) (view : ℕ) (blockA blockB : BlockHash)
  | buildProposal (view : ℕ) (highQc : QuorumCertificate) (parent : Block)
  deriving DecidableEq

namespace Action

/-- The actions that only accepting a proposal emits. -/
def isSafety : Action → Bool
  | .broadcast (.vote _) => true
  | .persist (.votedInView _) => true
  | .persist (.locked _) => true
  | .commit _ => true
  | _ => false

def committed? : Action → Option Block
  | .commit b => some b
  | _ => none

end Action

/-- `CacheLimits`; the pacemaker's own bound on timeout buckets is kept with the pacemaker. -/
structure CacheLimits where
  voteBucketCapacity : ℕ
  parkedProposalsCapacity : ℕ
  pendingBlocksCapacity : ℕ
  blockSyncInitialBackoffViews : ℕ
  blockSyncMaxBackoffViews : ℕ
  blockSyncPerPeerAttempts : ℕ
  blockSyncMaxAttempts : ℕ
  deriving DecidableEq

def CacheLimits.unboundedForTests : CacheLimits where
  voteBucketCapacity := usizeMax
  parkedProposalsCapacity := usizeMax
  pendingBlocksCapacity := usizeMax
  blockSyncInitialBackoffViews := 0
  blockSyncMaxBackoffViews := 0
  blockSyncPerPeerAttempts := 2 ^ 32 - 1
  blockSyncMaxAttempts := 2 ^ 32 - 1

end Boule
