import Boule.HotStuff.Ancestry
import Boule.Node.Blocks
import Boule.Reth.Application

/-! The shape of the blocks a node votes for, and how leaders make theirs. -/
namespace Boule

/-! ### Honest proposals -/

/-- The block that `build_proposal` ends with, once the execution layer has built its payload. -/
def RethApplication.buildProposal (P : Primitives) (a : RethApplication) (selfId : NodeId)
    (stateRoot : Bytes32) (commands : List Bytes) (parent : Block) (view timestamp : ℕ) :
    Block where
  header :=
    { parentHash := parent.hash P
      height := addU64 parent.header.height 1
      view := view
      proposer := selfId
      stateCommitment := stateRoot
      commandsCommitment := P.commandsHash commands
      validatorHistoryCommitment := 0
      committedHeight := a.committed.height
      committedStateRoot := a.committed.stateRoot
      timestamp := max timestamp parent.header.timestamp }
  commands := commands

/-- The proposal is one that a leader makes on `b`: its application builds the block for a later
view, its node stamps the block, and the certificate is the one for `b`. -/
structure MadeOn (P : Primitives) (p : Proposal) (b : Block) : Prop where
  built : ∃ (a : RethApplication) (selfId : NodeId) (stateRoot : Bytes32) (commands : List Bytes)
    (timestamp : ℕ) (commitment : Bytes32),
    p.block = { a.buildProposal P selfId stateRoot commands b p.block.header.view timestamp with
      header := { (a.buildProposal P selfId stateRoot commands b p.block.header.view
        timestamp).header with validatorHistoryCommitment := commitment } }
  room : b.header.height + 1 < 2 ^ 64
  later : b.header.view < p.block.header.view
  certified : p.justify.blockHash = b.hash P ∧ p.justify.view = b.header.view

/-- What a node sends for the block that its application has built on `b` is such a proposal. -/
theorem madeOn_stampProposal {P : Primitives} {V : Verifier} {cfg : NodeConfig}
    (n : ConsensusNode) (a : RethApplication) (selfId : NodeId) (stateRoot : Bytes32)
    (commands : List Bytes) {b : Block} {view timestamp : ℕ} {qc : QuorumCertificate}
    (hroom : b.header.height + 1 < 2 ^ 64) (hlater : b.header.view < view)
    (hcert : qc.blockHash = b.hash P ∧ qc.view = b.header.view) :
    MadeOn P (n.stampProposal V cfg P
      ⟨a.buildProposal P selfId stateRoot commands b view timestamp, qc⟩) b where
  built := ⟨a, selfId, stateRoot, commands, timestamp, _, rfl⟩
  room := hroom
  later := hlater
  certified := hcert

namespace Sample

end Sample

end Boule
