import Boule.HotStuff.Types
import Boule.KeyHistory

/-! Wire messages, what ingress makes of them, and the signatures they carry. -/
namespace Boule

abbrev ChainId := Bytes32

structure BlockResponsePayload where
  requestedHash : BlockHash
  block : Option Block
  deriving DecidableEq

structure BlockRangeResponsePayload where
  fromHeight : ℕ
  toHeight : ℕ
  blocks : List Block
  deriving DecidableEq

/-- The payloads that travel in an Ed25519 envelope. -/
inductive SignedPayload where
  | proposal (p : Proposal)
  | vote (v : Vote)
  | newView (nv : NewView)
  | timeoutVote (tv : TimeoutVote)
  | blockResponse (r : BlockResponsePayload)
  | blockRangeResponse (r : BlockRangeResponsePayload)
  deriving DecidableEq

/-- `SignedMessage::DOMAIN` -/
def SignedPayload.domain : SignedPayload → String
  | proposal _ => "boule.hotstuff.proposal.v1"
  | vote _ => "boule.hotstuff.vote.v1"
  | newView _ => "boule.hotstuff.newview.v1"
  | timeoutVote _ => "boule.hotstuff.timeout.v1"
  | blockResponse _ => "boule.consensus.block_response.v1"
  | blockRangeResponse _ => "boule.consensus.block_range_response.v1"

/-- The bytes that are signed, before encoding: chain id, domain tag and payload. -/
structure Preimage where
  chainId : ChainId
  domain : String
  payload : SignedPayload
  deriving DecidableEq

def preimage (payload : SignedPayload) (chainId : ChainId) : Preimage :=
  ⟨chainId, payload.domain, payload⟩

def votePreimage (view : ℕ) (blockHash : BlockHash) (chainId : ChainId) : Preimage :=
  preimage (.vote ⟨view, blockHash⟩) chainId

inductive EquivocationProof where
  | doubleVote (a b : Signed Vote)
  | doubleProposal (a b : Signed Proposal)
  deriving DecidableEq

def snapshotFormatVersion : ℕ := 3

structure SnapshotManifest where
  version : ℕ
  height : ℕ
  view : ℕ
  blockHash : BlockHash
  stateCommitment : Bytes32
  validatorSet : List NodeId
  chunkSize : ℕ
  chunkCount : ℕ
  chunkHashes : List Bytes32
  commitQc : QuorumCertificate
  block : Block
  createdUnixSecs : ℕ
  validatorHistory : PersistedValidatorHistory
  validatorKeyHistory : PersistedKeyHistory
  blsKeyHistory : Option PersistedKeyHistory
  operatorKeyHistory : Option PersistedKeyHistory
  deriving DecidableEq

inductive WireMessage where
  | proposal (signed : Signed Proposal)
  | vote (signed : Signed Vote) (bls : Option BlsPartialSig)
  | newView (signed : Signed NewView)
  | timeoutVote (signed : Signed TimeoutVote)
  | blockRequest (hash : BlockHash)
  | blockResponse (signed : Signed BlockResponsePayload)
  | snapshotManifestRequest (height : Option ℕ)
  | snapshotManifestResponse (manifest : Option SnapshotManifest)
  | snapshotChunkRequest (height chunkIdx : ℕ)
  | snapshotChunkResponse (height chunkIdx : ℕ) (payload : Option Bytes)
  | blockRangeRequest (fromHeight toHeight : ℕ)
  | blockRangeResponse (signed : Signed BlockRangeResponsePayload)
  | equivocationEvidence (proof : EquivocationProof)
  | status (committedHeight : ℕ)
  deriving DecidableEq

inductive PacemakerEvent where
  | onQc (view : ℕ)
  | onTimeoutCert (view : ℕ)
  | onTimeout (view : ℕ)
  | onProposalReceived (view : ℕ)
  | onRoundSync (view : ℕ)
  deriving DecidableEq

inductive Dispatch where
  | safety (event : Event)
  | pacemaker (event : PacemakerEvent)
  | serveBlock (hash : BlockHash) (peer : NodeId)
  | peerStatus (sender : NodeId) (height : ℕ)
  | receiveBlock (requestedHash : BlockHash) (block : Option Block) (sender : NodeId)
  | timeoutVote (signed : Signed TimeoutVote) (highQcTrusted : Bool)
  | serveSnapshotManifest (height : Option ℕ) (peer : NodeId)
  | receiveSnapshotManifest (manifest : Option SnapshotManifest) (sender : NodeId)
  | serveSnapshotChunk (height chunkIdx : ℕ) (peer : NodeId)
  | receiveSnapshotChunk (height chunkIdx : ℕ) (payload : Option Bytes) (sender : NodeId)
  | serveBlockRange (fromHeight toHeight : ℕ) (peer : NodeId)
  | receiveBlockRange (fromHeight toHeight : ℕ) (blocks : List Block) (sender : NodeId)
  | receiveEquivocationEvidence (proof : EquivocationProof) (validatorId : ValidatorId)
  deriving DecidableEq

inductive EquivocationError where
  | differentViews
  | notConflicting
  | invalidSignature
  | badSigner
  | differentValidators
  deriving DecidableEq

def EquivocationError.text : EquivocationError → String
  | differentViews => "messages are at different views"
  | notConflicting => "messages name the same block (not a conflict)"
  | invalidSignature => "a signature failed to verify"
  | badSigner => "a signer is unknown or used a key not active at that view"
  | differentValidators => "messages were signed by different validators"

/-- `IngressError`; `panicked` stands for a failed `expect`. -/
inductive IngressError where
  | unknownSigner (signer : NodeId)
  | invalidSignature
  | malformedHighQc (view : ℕ)
  | invalidQcAggregate (view : ℕ) (scheme : String)
  | invalidBlsPartial (view : ℕ) (signer : NodeId)
  | invalidValidatorHistoryCommitment (view height : ℕ) (claimed actual : Bytes32)
  | invalidEquivocationEvidence (e : EquivocationError)
  | panicked
  deriving DecidableEq

/-- `BlsAggregated::NAME` -/
def blsName : String := "bls_aggregated"

/-- `QcVerification::Verify` -/
structure QcVerification where
  blsKeyHistory : Option BlsKeyHistory
  operatorKeyHistory : Option OperatorKeyHistory
  minVEffDelay : ℕ
  genesisHash : BlockHash

/-- Signature verification, and the commitment to the histories after a block. -/
structure Verifier where
  ed25519 : NodeId → Preimage → ℕ → Bool
  blsPartial : BlsPublicKey → Preimage → BlsPartialSig → Bool
  fastAggregate : BlsAggregate → Preimage → List BlsPublicKey → Bool
  postBlockCommitment : Block → ValidatorSetHistory → ValidatorKeyHistory →
    Option BlsKeyHistory → Option OperatorKeyHistory → ChainId → ℕ → Bytes32

end Boule
