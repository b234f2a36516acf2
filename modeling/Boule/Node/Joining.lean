import Boule.Node.Restore
import Boule.SnapshotSync

/-! What certifies the state that a joining node adopts. -/
namespace Boule

/-- The keys a node checks certificates with. -/
def ConsensusNode.qcVerification (P : Primitives) (cfg : NodeConfig) (n : ConsensusNode) :
    QcVerification where
  blsKeyHistory := n.blsKeyHistory
  operatorKeyHistory := some n.operatorKeyHistory
  minVEffDelay := cfg.minVEffDelay
  genesisHash := (cfg.genesis P).hash P

section
variable (P : Primitives) (V : Verifier) (cfg : NodeConfig)

/-- The certificate is for the manifest's block and view, by a quorum of the set that the node's
own history has for that view, and its aggregate verifies. -/
structure Certified (n : ConsensusNode) (m : SnapshotManifest) : Prop where
  blockHash : m.commitQc.blockHash = m.block.hash P
  view : m.commitQc.view = m.view
  quorum : m.commitQc.hasQuorum (n.validatorHistory.setAt m.view) = true
  aggregate : AggregateVerifies V m.commitQc n.validatorHistory (n.qcVerification P cfg)
    (cfg.chainId P)

/-- What `verify` leaves open: the certificate's view, its aggregate, and the quorum when the
node's current set is not the one of the manifest's view. -/
structure CheckedElsewhere (n : ConsensusNode) (m : SnapshotManifest) : Prop where
  view : m.commitQc.view = m.view
  quorum : n.validatorHistory.setAt m.view ≠ n.validatorSet →
    m.commitQc.hasQuorum (n.validatorHistory.setAt m.view) = true
  aggregate : AggregateVerifies V m.commitQc n.validatorHistory (n.qcVerification P cfg)
    (cfg.chainId P)

end

theorem certified_iff_of_verify {P : Primitives} {V : Verifier} {R : HistoryPrimitives}
    {cfg : NodeConfig} {n : ConsensusNode} {m : SnapshotManifest}
    (hv : m.verify P R n.validatorSet = .ok ()) :
    Certified P V cfg n m ↔ CheckedElsewhere P V cfg n m := by
  have ha := SnapshotManifest.verify_eq_ok.mp hv
  constructor
  · intro h
    exact ⟨h.view, fun _ => h.quorum, h.aggregate⟩
  · intro h
    refine ⟨ha.qcBlockHash.trans ha.blockHash.symm, h.view, ?_, h.aggregate⟩
    by_cases hs : n.validatorHistory.setAt m.view = n.validatorSet
    · rw [hs]
      exact ha.quorum
    · exact h.quorum hs

/-- Whatever peers send, a node asks to restore verified manifests only; and a manifest that it
has verified and restored is certified exactly when the checks that no step makes hold as
well. -/
theorem restored_certified_iff {α : Type} (A : Application α) (P : Primitives) (V : Verifier)
    (R : HistoryPrimitives) (sha256 : Bytes → Bytes32) (cfg : NodeConfig)
    (policy : SnapshotPolicy) (written : Bool) (r : FullNode α) :
    (∀ inputs m payload, .restore m payload ∈
        SyncState.new.actions P R sha256 policy r.node.validatorSet inputs →
      m.verify P R r.node.validatorSet = .ok ()) ∧
    ∀ m payload, m.verify P R r.node.validatorSet = .ok () →
      (r.restoreFromSnapshot A P written m payload).2 = .ok () →
      (Certified P V cfg r.node m ↔ CheckedElsewhere P V cfg r.node m) := by
  constructor
  · intro inputs m payload hmem
    have hnew : SyncState.new.Checked P R sha256 r.node.validatorSet := trivial
    exact (SyncState.checked_of_mem_actions hnew hmem).1
  · intro m payload hv _
    exact certified_iff_of_verify hv

namespace Sample

/-- An aggregate is the sum of the keys whose holders have signed. -/
def summing : Verifier := { verifier with fastAggregate := fun agg _ keys => agg = keys.sum }

def lengthHash (b : Bytes) : Bytes32 := b.length + 1

def everyBlock : SnapshotPolicy := ⟨1, 1, 1⟩

/-- A snapshot with an empty payload. -/
def emptySnapshot (qc : QuorumCertificate) : SnapshotManifest :=
  { snapshotOf changing with
    chunkCount := 1
    chunkHashes := [lengthHash []]
    commitQc := qc }

/-- Peer 2 proposes a block of height 50, sends the manifest and its only chunk. -/
def fetchFrom (m : SnapshotManifest) : List SyncInput :=
  [.observeProposal 0 50 2, .manifestResponse 2 (some m),
    .chunkResponse 2 m.height 0 (some [])]

def signedByThree : QuorumCertificate := { certificate changing with signatures := 36 }

theorem certified_three : ∃ r ∈ fullNodeAfter [.boot],
    .restore (emptySnapshot signedByThree) [] ∈ SyncState.new.actions timed operatorHash lengthHash
      everyBlock r.node.validatorSet (fetchFrom (emptySnapshot signedByThree)) ∧
    (r.restoreFromSnapshot counter timed true (emptySnapshot signedByThree) []).2 = .ok () ∧
    Certified timed summing config r.node (emptySnapshot signedByThree) := by
  obtain ⟨r, hr, hmem, hok, hset, hagg⟩ : ∃ r ∈ fullNodeAfter [.boot],
      .restore (emptySnapshot signedByThree) [] ∈ SyncState.new.actions timed operatorHash
        lengthHash everyBlock r.node.validatorSet (fetchFrom (emptySnapshot signedByThree)) ∧
      (r.restoreFromSnapshot counter timed true (emptySnapshot signedByThree) []).2 = .ok () ∧
      r.node.validatorHistory.setAt (emptySnapshot signedByThree).view = r.node.validatorSet ∧
      verifyQcIfRequested summing signedByThree r.node.validatorHistory
        (r.node.qcVerification timed config) (config.chainId timed) = .ok () := by
    decide +kernel
  have h := restored_certified_iff counter timed summing operatorHash lengthHash config everyBlock
    true r
  refine ⟨r, hr, hmem, hok, (h.2 _ _ (h.1 _ _ _ hmem) hok).mpr ⟨rfl, absurd hset, ?_⟩⟩
  rcases (verifyQcIfRequested_eq_ok (by decide)).mp hagg with hzero | hverifies
  · exact absurd hzero (by decide +kernel)
  · exact hverifies

/-- A peer makes up a certificate: nobody has signed it, and a fresh node adopts its state. -/
theorem forged_adopted : ∃ r ∈ fullNodeAfter [.boot],
    .restore (emptySnapshot (certificate changing)) [] ∈ SyncState.new.actions timed operatorHash
      lengthHash everyBlock r.node.validatorSet
      (fetchFrom (emptySnapshot (certificate changing))) ∧
    (r.restoreFromSnapshot counter timed true (emptySnapshot (certificate changing)) []).2 =
      .ok () ∧
    ¬ Certified timed summing config r.node (emptySnapshot (certificate changing)) := by
  obtain ⟨r, hr, hmem, hok, hagg⟩ : ∃ r ∈ fullNodeAfter [.boot],
      .restore (emptySnapshot (certificate changing)) [] ∈ SyncState.new.actions timed
        operatorHash lengthHash everyBlock r.node.validatorSet
        (fetchFrom (emptySnapshot (certificate changing))) ∧
      (r.restoreFromSnapshot counter timed true (emptySnapshot (certificate changing)) []).2 =
        .ok () ∧
      verifyQcIfRequested summing (certificate changing) r.node.validatorHistory
        (r.node.qcVerification timed config) (config.chainId timed) ≠ .ok () := by
    decide +kernel
  refine ⟨r, hr, hmem, hok, fun h => hagg ?_⟩
  exact (verifyQcIfRequested_eq_ok (by decide)).mpr (.inr h.aggregate)

end Sample

end Boule
