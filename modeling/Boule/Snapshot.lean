import Boule.HistoryCommitment

/-! Snapshot manifests: how one is built, and what a joining node checks. -/
namespace Boule

inductive ManifestError where
  | unsupportedVersion (got expected : ℕ)
  | validatorSetMismatch
  | qcMalformed
  | qcInsufficientQuorum (signers quorum : ℕ)
  | qcBlockHashMismatch
  | chunkCountMismatch (chunkCount hashesLen : ℕ)
  | invalidChunkSize
  | blockHashMismatch
  | blockHeightMismatch
  | blockViewMismatch
  | blockStateCommitmentMismatch
  | validatorHistoryCommitmentMismatch
  deriving DecidableEq

inductive ChunkError where
  | indexOutOfRange (chunkIdx chunkCount : ℕ)
  | hashMismatch (chunkIdx : ℕ) (expected actual : Bytes32)
  deriving DecidableEq

def quorumSize (n : ℕ) : ℕ := 2 * n / 3 + 1

/-- `ValidatorSet::new`: every member has weight one. -/
def ValidatorSet.new (members : List ValidatorId) : Except WeightedSetError ValidatorSet :=
  withWeights (members.map fun m => (m, 1))

/-- A history that may be absent. -/
def decodeOptional {α π ε : Type} (decode : π → Except ε α) : Option π → Option (Option α)
  | none => some none
  | some p => (decode p).toOption.map some

namespace SnapshotManifest

/-- The histories that the manifest carries, decoded. -/
def rebuiltHistories (m : SnapshotManifest) : Option Histories := do
  let set ← (ValidatorSetHistory.fromPersisted m.validatorHistory).toOption
  let key ← (ValidatorKeyHistory.fromPersisted m.validatorKeyHistory).toOption
  let bls ← decodeOptional BlsKeyHistory.fromPersisted m.blsKeyHistory
  let operator ← decodeOptional OperatorKeyHistory.fromPersisted m.operatorKeyHistory
  return ⟨set, key, bls, operator⟩

theorem rebuiltHistories_eq_some {m : SnapshotManifest} {h : Histories} :
    m.rebuiltHistories = some h ↔
      ValidatorSetHistory.fromPersisted m.validatorHistory = .ok h.set ∧
      ValidatorKeyHistory.fromPersisted m.validatorKeyHistory = .ok h.key ∧
      decodeOptional BlsKeyHistory.fromPersisted m.blsKeyHistory = some h.bls ∧
      decodeOptional OperatorKeyHistory.fromPersisted m.operatorKeyHistory = some h.operator := by
  simp only [rebuiltHistories, Option.bind_eq_bind, Option.bind_eq_some_iff, toOption_eq_some]
  constructor
  · rintro ⟨set, hset, key, hkey, bls, hbls, operator, hoperator, h⟩
    obtain rfl := Option.some.inj h
    exact ⟨hset, hkey, hbls, hoperator⟩
  · rintro ⟨hset, hkey, hbls, hoperator⟩
    exact ⟨h.set, hset, h.key, hkey, h.bls, hbls, h.operator, hoperator, rfl⟩

def verify (P : Primitives) (R : HistoryPrimitives) (m : SnapshotManifest)
    (localValidatorSet : ValidatorSet) : Except ManifestError Unit := do
  require (m.version = snapshotFormatVersion)
    (.unsupportedVersion m.version snapshotFormatVersion)
  require ((ValidatorSet.new m.validatorSet).toOption = some localValidatorSet)
    .validatorSetMismatch
  require (m.commitQc.isWellFormed localValidatorSet) .qcMalformed
  require (m.commitQc.hasQuorum localValidatorSet)
    (.qcInsufficientQuorum m.commitQc.signerCount (quorumSize localValidatorSet.len))
  require (m.commitQc.blockHash = m.blockHash) .qcBlockHashMismatch
  require (m.chunkCount = m.chunkHashes.length)
    (.chunkCountMismatch m.chunkCount m.chunkHashes.length)
  require (m.chunkSize ≠ 0) .invalidChunkSize
  require (m.block.hash P = m.blockHash) .blockHashMismatch
  require (m.block.header.height = m.height) .blockHeightMismatch
  require (m.block.header.view = m.view) .blockViewMismatch
  require (m.block.header.stateCommitment = m.stateCommitment) .blockStateCommitmentMismatch
  let histories ← okOr m.rebuiltHistories .validatorHistoryCommitmentMismatch
  require (validatorHistoryCommitmentV2 R histories = m.block.header.validatorHistoryCommitment)
    .validatorHistoryCommitmentMismatch

def verifyChunk (sha256 : Bytes → Bytes32) (m : SnapshotManifest) (chunkIdx : ℕ)
    (payload : Bytes) : Except ChunkError Unit := do
  let expected ← okOr m.chunkHashes[chunkIdx]? (.indexOutOfRange chunkIdx m.chunkCount)
  require (sha256 payload = expected) (.hashMismatch chunkIdx expected (sha256 payload))

/-- What `verify` establishes. -/
structure Accepted (P : Primitives) (R : HistoryPrimitives) (m : SnapshotManifest)
    (localValidatorSet : ValidatorSet) : Prop where
  version : m.version = snapshotFormatVersion
  validatorSet : ValidatorSet.new m.validatorSet = .ok localValidatorSet
  wellFormed : m.commitQc.isWellFormed localValidatorSet = true
  quorum : m.commitQc.hasQuorum localValidatorSet = true
  qcBlockHash : m.commitQc.blockHash = m.blockHash
  chunkCount : m.chunkCount = m.chunkHashes.length
  chunkSize : m.chunkSize ≠ 0
  blockHash : m.block.hash P = m.blockHash
  height : m.block.header.height = m.height
  view : m.block.header.view = m.view
  stateCommitment : m.block.header.stateCommitment = m.stateCommitment
  histories : ∃ h, m.rebuiltHistories = some h ∧
    validatorHistoryCommitmentV2 R h = m.block.header.validatorHistoryCommitment

theorem verify_eq_ok {P : Primitives} {R : HistoryPrimitives} {m : SnapshotManifest}
    {localValidatorSet : ValidatorSet} :
    m.verify P R localValidatorSet = .ok () ↔ m.Accepted P R localValidatorSet := by
  simp only [verify, bind_eq_ok, require_eq_ok, okOr_eq_ok, decide_eq_true_iff, toOption_eq_some]
  constructor
  · rintro ⟨_, hversion, _, hset, _, hwf, _, hquorum, _, hqc, _, hcount, _, hsize, _, hhash, _,
      hheight, _, hview, _, hstate, h, hrebuilt, hcommit⟩
    exact ⟨hversion, hset, hwf, hquorum, hqc, hcount, hsize, hhash, hheight, hview, hstate, h,
      hrebuilt, hcommit⟩
  · rintro ⟨hversion, hset, hwf, hquorum, hqc, hcount, hsize, hhash, hheight, hview, hstate, h,
      hrebuilt, hcommit⟩
    exact ⟨(), hversion, (), hset, (), hwf, (), hquorum, (), hqc, (), hcount, (), hsize, (),
      hhash, (), hheight, (), hview, (), hstate, h, hrebuilt, hcommit⟩

theorem verifyChunk_eq_ok {sha256 : Bytes → Bytes32} {m : SnapshotManifest} {chunkIdx : ℕ}
    {payload : Bytes} : m.verifyChunk sha256 chunkIdx payload = .ok () ↔
      m.chunkHashes[chunkIdx]? = some (sha256 payload) := by
  simp only [verifyChunk, bind_eq_ok, require_eq_ok, okOr_eq_ok, decide_eq_true_iff]
  constructor
  · rintro ⟨_, hnamed, rfl⟩
    exact hnamed
  · exact fun h => ⟨_, h, rfl⟩

end SnapshotManifest

end Boule
