import Boule.Node.Machine

/-! What the operations of a node leave alone: the part of the core's state that the voting
and commit rules read, the stored voted view and the stored blocks. -/
namespace Boule
open HotStuffState

theorem parkedProposals_insertValidatorBoundary {c c' : HotStuffCore} {vEff : ℕ}
    {set : ValidatorSet} (h : c.insertValidatorBoundary vEff set = .ok c') :
    c'.parkedProposals = c.parkedProposals := by
  obtain ⟨history, -, h⟩ := bind_eq_ok.mp h
  obtain rfl := Except.ok.inj h
  rfl

theorem sameSafety_replayBoundaries (c : HotStuffCore) (boundaries : List (ℕ × ValidatorSet)) :
    SameSafety c.state (replayBoundaries c boundaries).1.state := by
  induction boundaries generalizing c with
  | nil => exact .refl _
  | cons b bs ih =>
    rw [replayBoundaries]
    split_ifs
    · exact ih c
    · cases hc : c.insertValidatorBoundary b.1 b.2 with
      | error e => exact .refl _
      | ok c' => exact (sameSafety_insertValidatorBoundary hc).trans (ih c')

namespace ConsensusNode

theorem insertPendingBlocks_lastVotedView (P : Primitives) (n : ConsensusNode)
    (blocks : List Block) :
    (n.insertPendingBlocks P blocks).core.state.lastVotedView = n.core.state.lastVotedView := by
  show (blocks.foldl (HotStuffCore.insertPendingBlock P) n.core).state.lastVotedView = _
  generalize n.core = c
  induction blocks generalizing c with
  | nil => rfl
  | cons b bs ih =>
    rw [List.foldl_cons, ih]
    exact insertPending_lastVotedView P c.state b

theorem core_maybeEmitBlockRangeRequest (n : ConsensusNode) (proposer : NodeId) (height : ℕ) :
    (n.maybeEmitBlockRangeRequest proposer height).core = n.core := by
  unfold maybeEmitBlockRangeRequest
  simp only
  split_ifs <;> rfl

/-- The core of a node that starts, before it takes over the boundaries on disk. -/
def startingCore (P : Primitives) (cfg : NodeConfig) (storage : Storage) : HotStuffCore :=
  (HotStuffCore.withLimits cfg.selfId (recoverState P storage cfg.validatorSet (cfg.genesis P))
    cfg.limits).withProposedInView (storage.proposedInView.getD 0)

/-- What a node that starts has read from disk. -/
structure Recovered (P : Primitives) (cfg : NodeConfig) (storage : Storage) (n : ConsensusNode) :
    Prop where
  history : loadOr storage.validatorHistory ValidatorSetHistory.fromPersisted
    (.fromGenesis cfg.validatorSet) = some n.validatorHistory
  core : replayBoundaries (startingCore P cfg storage) n.validatorHistory.iter = (n.core, true)
  keys : loadOr storage.validatorKeyHistory ValidatorKeyHistory.fromPersisted
    (.fromSetHistory n.validatorHistory) = some n.validatorKeyHistory
  operators : loadOr storage.operatorKeyHistory OperatorKeyHistory.fromPersisted
    (.withGenesis cfg.operatorKeys) = some n.operatorKeyHistory
  bls : (loadOr storage.blsKeyHistory BlsKeyHistory.fromPersisted
    (.withGenesis cfg.genesisBls)).map some = some n.blsKeyHistory
  lastCommitted : (storage.lastCommitted.getD ⟨0, 0, 0⟩).height = n.lastCommittedHeight ∧
    (storage.lastCommitted.getD ⟨0, 0, 0⟩).view = n.lastCommittedView
  stashedProposal : n.stashedProposal = none

theorem recovered_of_recover {P : Primitives} {cfg : NodeConfig} {storage : Storage}
    {n : ConsensusNode} (h : recover P cfg storage = some n) : Recovered P cfg storage n := by
  simp only [recover, Option.bind_eq_bind] at h
  obtain ⟨history, hhistory, h⟩ := Option.bind_eq_some_iff.mp h
  split_ifs at h with hreplayed
  · simp at h
  · obtain ⟨-, -, h⟩ := Option.bind_eq_some_iff.mp h
    obtain ⟨key, hkey, h⟩ := Option.bind_eq_some_iff.mp h
    obtain ⟨operator, hoperator, h⟩ := Option.bind_eq_some_iff.mp h
    obtain ⟨bls, hbls, h⟩ := Option.bind_eq_some_iff.mp h
    obtain rfl := Option.some.inj h
    rw [Bool.not_eq_true, Bool.not_eq_false'] at hreplayed
    exact ⟨hhistory, Prod.ext rfl hreplayed, hkey, hoperator, by rw [hbls]; rfl, ⟨rfl, rfl⟩, rfl⟩

/-- A node that starts is in view zero with the set of that view, and takes its role from it. -/
theorem recover_starts {P : Primitives} {cfg : NodeConfig} {storage : Storage}
    {n : ConsensusNode} (h : recover P cfg storage = some n) :
    n.validatorSet = n.validatorHistory.currentSet ∧ n.currentView = 0 ∧
      n.isFull = !(n.validatorHistory.setAt 0).contains cfg.selfId := by
  simp only [recover, Option.bind_eq_bind] at h
  obtain ⟨history, -, h⟩ := Option.bind_eq_some_iff.mp h
  split_ifs at h
  · simp at h
  · obtain ⟨-, -, h⟩ := Option.bind_eq_some_iff.mp h
    obtain ⟨key, -, h⟩ := Option.bind_eq_some_iff.mp h
    obtain ⟨operator, -, h⟩ := Option.bind_eq_some_iff.mp h
    obtain ⟨bls, -, h⟩ := Option.bind_eq_some_iff.mp h
    obtain rfl := Option.some.inj h
    exact ⟨rfl, rfl, rfl⟩

theorem recover_core {P : Primitives} {cfg : NodeConfig} {storage : Storage} {n : ConsensusNode}
    (h : recover P cfg storage = some n) :
    SameSafety ((recoverState P storage cfg.validatorSet (cfg.genesis P)).setPendingBlocksLimit
      cfg.limits.pendingBlocksCapacity) n.core.state := by
  have hsame := sameSafety_replayBoundaries (startingCore P cfg storage) n.validatorHistory.iter
  rw [(recovered_of_recover h).core] at hsame
  exact hsame

theorem sameSafety_applyReconfig (n : ConsensusNode) (cmd : ReconfigCommand)
    (newSet : ValidatorSet) :
    SameSafety n.core.state (n.applyReconfig cmd newSet).1.core.state := by
  unfold applyReconfig
  split
  · exact .refl _
  · split
    · exact .refl _
    · exact sameSafety_insertValidatorBoundary ‹_›

theorem sameSafety_applyReconfigs (R : ReconfigPrimitives) (delay : ℕ) (chainId : ChainId)
    (n : ConsensusNode) (block : Block) :
    SameSafety n.core.state (n.applyReconfigs R delay chainId block).1.core.state := by
  unfold applyReconfigs
  generalize block.commands = commands
  generalize hp : (n, false) = progress
  have hn : SameSafety n.core.state progress.1.core.state := by
    rw [← hp]
    exact .refl _
  clear hp
  induction commands generalizing progress with
  | nil => exact hn
  | cons bytes commands ih =>
    apply ih
    unfold applyReconfigPayload
    split
    · exact hn
    · exact hn.trans (sameSafety_applyReconfig _ _ _)

/-- A commit stores its block and no other, and leaves the votes alone. -/
structure CommitFrame (storage storage' : Storage) (n n' : ConsensusNode) (block : Block) :
    Prop where
  core : SameSafety n.core.state n'.core.state
  lastVotedView : storage'.lastVotedView = storage.lastVotedView
  blocks : ∀ {h b}, storage'.blocks.get? h = some b → b = block ∨ storage.blocks.get? h = some b

theorem commitFrame_applyCommit {P : Primitives} {R : ReconfigPrimitives} {cfg : NodeConfig}
    {storage storage' : Storage} {n n' : ConsensusNode} {block : Block}
    (h : n.applyCommit P R cfg storage block = some (storage', n')) :
    CommitFrame storage storage' n n' block := by
  obtain ⟨rfl, rfl⟩ := Prod.mk.inj (applyCommit_eq_some h)
  constructor
  · rw [← n.advanced_core block.header.height block.header.view]
    exact sameSafety_applyReconfigs R cfg.minVEffDelay (cfg.chainId P) _ block
  · rfl
  · intro hash b hb
    have hb' := Table.get?_of_foldl_erase hb
    unfold Storage.putBlock at hb'
    rw [Table.get?_insert] at hb'
    split_ifs at hb'
    · exact .inl (Option.some.inj hb').symm
    · exact .inr hb'

/-- A restore, whether it succeeds or fails half way: the core has adopted the snapshot and
its safety record is on disk. -/
structure RestoreFrame (P : Primitives) (storage storage' : Storage) (n n' : ConsensusNode)
    (manifest : SnapshotManifest) : Prop where
  core : SameSafety (n.core.adoptSnapshot P manifest.block manifest.commitQc manifest.view).1.state
    n'.core.state
  lastVotedView : storage'.lastVotedView = some manifest.view
  blocks : ∀ {h b}, storage'.blocks.get? h = some b →
    b = manifest.block ∨ storage.blocks.get? h = some b

theorem installHistories_frame (storage : Storage) (n : ConsensusNode)
    (manifest : SnapshotManifest) :
    SameSafety n.core.state (installHistories storage n manifest).2.1.core.state ∧
      (installHistories storage n manifest).1.lastVotedView = storage.lastVotedView ∧
      (installHistories storage n manifest).1.blocks = storage.blocks := by
  unfold installHistories
  simp only
  split
  · exact ⟨.refl _, rfl, rfl⟩
  · split_ifs
    · exact ⟨sameSafety_replayBoundaries _ _, rfl, rfl⟩
    · exact ⟨sameSafety_replayBoundaries _ _, rfl, rfl⟩

theorem restoreFrame_restore (P : Primitives) (storage : Storage) (n : ConsensusNode)
    (manifest : SnapshotManifest) :
    RestoreFrame P storage (n.restore P storage manifest).1 n (n.restore P storage manifest).2.1
      manifest := by
  obtain ⟨hstorage, hnode⟩ := n.restore_installs P storage manifest
  obtain ⟨hc, hv, hb⟩ := installHistories_frame (writeSnapshot storage manifest
    (n.core.adoptSnapshot P manifest.block manifest.commitQc manifest.view).2)
      ((n.adopt P manifest).raiseCommitted manifest) manifest
  rw [core_raiseCommitted_adopt] at hc
  rw [hstorage, hnode]
  constructor
  · exact hc
  · rw [hv]
    rfl
  · intro h b hget
    rw [hb] at hget
    have hget' : Table.get? (storage.blocks.insert manifest.blockHash manifest.block) h =
      some b := hget
    rw [Table.get?_insert] at hget'
    split_ifs at hget'
    · exact .inl (Option.some.inj hget').symm
    · exact .inr hget'

end ConsensusNode

end Boule
