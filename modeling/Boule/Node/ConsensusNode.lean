import Boule.HotStuff.Core
import Boule.Node.Storage
import Boule.Pacemaker.Leader
import Boule.Pacemaker.Step
import Boule.Reconfig

/-! `ConsensusNode`: the replica with its pacemaker and histories, how it is recovered from
storage, what a commit does to it and how it restores a snapshot. Execution-layer catch-up,
mempool, rotations, evidence, endpoints, parameters and staged updates are left out. -/
namespace Boule

structure NodeConfig where
  selfId : NodeId
  validatorSet : ValidatorSet
  genesisStateCommitment : Bytes32
  genesisHistoryCommitment : Bytes32
  limits : CacheLimits
  minVEffDelay : ℕ
  blockRetentionWindow : ℕ
  weakSubjectivityCheckpoint : Option (ℕ × BlockHash)
  operatorKeys : List (ValidatorId × NodeId)
  genesisBls : List (NodeId × BlsPublicKey)

namespace NodeConfig

def genesis (P : Primitives) (cfg : NodeConfig) : Block :=
  .genesis P cfg.genesisStateCommitment cfg.genesisHistoryCommitment

/-- `ChainId::from_genesis_hash` -/
def chainId (P : Primitives) (cfg : NodeConfig) : ChainId := (cfg.genesis P).hash P

end NodeConfig

/-- The time of the last request only gates retries and is left out. -/
structure BlockSyncRangeInflight where
  peer : NodeId
  attempts : ℕ
  deriving DecidableEq

/-- `selectorHistory` is the history the pacemaker's selector was built from. -/
structure ConsensusNode where
  core : HotStuffCore
  pacemaker : Pacemaker
  selectorHistory : ValidatorSetHistory
  validatorSet : ValidatorSet
  isFull : Bool
  validatorHistory : ValidatorSetHistory
  validatorKeyHistory : ValidatorKeyHistory
  operatorKeyHistory : OperatorKeyHistory
  blsKeyHistory : Option BlsKeyHistory
  lastCommittedHeight : ℕ
  lastCommittedView : ℕ
  blockSyncRangeInflight : Table (ℕ × ℕ) BlockSyncRangeInflight
  stashedProposal : Option Proposal
  deriving DecidableEq

/-- The loop over a history's boundaries, with whether it reached the end. -/
def replayBoundaries : HotStuffCore → List (ℕ × ValidatorSet) → HotStuffCore × Bool
  | c, [] => (c, true)
  | c, (vEff, set) :: rest =>
    if vEff = 0 then replayBoundaries c rest
    else
      match c.insertValidatorBoundary vEff set with
      | .error _ => (c, false)
      | .ok c => replayBoundaries c rest

/-- A stored value, or the default when there is none. -/
def loadOr {α π ε : Type} (stored : Option π) (decode : π → Except ε α) (fallback : α) :
    Option α :=
  match stored with
  | none => some fallback
  | some raw => (decode raw).toOption

def weakSubjectivityViolation (checkpoint : Option (ℕ × BlockHash)) (height : ℕ)
    (blockHash : BlockHash) : Bool :=
  checkpoint.any fun cp => height = cp.1 && blockHash ≠ cp.2

namespace ConsensusNode

def currentView (n : ConsensusNode) : ℕ := n.pacemaker.currentView

/-- Whether the selector names this node. -/
def leads (n : ConsensusNode) (view : ℕ) : Bool :=
  scheduledLeader n.selectorHistory view = some n.core.selfId

/-- `recover` with the key histories that the caller loads; `none` for a value that does not
decode. -/
def recover (P : Primitives) (cfg : NodeConfig) (storage : Storage) : Option ConsensusNode := do
  let hsState := recoverState P storage cfg.validatorSet (cfg.genesis P)
  let lastCommitted := storage.lastCommitted.getD ⟨0, 0, 0⟩
  let validatorHistory ← loadOr storage.validatorHistory ValidatorSetHistory.fromPersisted
    (.fromGenesis cfg.validatorSet)
  let core := (HotStuffCore.withLimits cfg.selfId hsState cfg.limits).withProposedInView
    (storage.proposedInView.getD 0)
  let (core, replayed) := replayBoundaries core validatorHistory.iter
  if !replayed then none
  let validatorKeyHistory ← loadOr storage.validatorKeyHistory ValidatorKeyHistory.fromPersisted
    (.fromSetHistory validatorHistory)
  let operatorKeyHistory ← loadOr storage.operatorKeyHistory OperatorKeyHistory.fromPersisted
    (.withGenesis cfg.operatorKeys)
  let blsKeyHistory ← loadOr storage.blsKeyHistory BlsKeyHistory.fromPersisted
    (.withGenesis cfg.genesisBls)
  return {
    core := core
    pacemaker := .new
    selectorHistory := validatorHistory
    validatorSet := validatorHistory.currentSet
    isFull := !(validatorHistory.setAt 0).contains cfg.selfId
    validatorHistory := validatorHistory
    validatorKeyHistory := validatorKeyHistory
    operatorKeyHistory := operatorKeyHistory
    blsKeyHistory := some blsKeyHistory
    lastCommittedHeight := lastCommitted.height
    lastCommittedView := lastCommitted.view
    blockSyncRangeInflight := ∅
    stashedProposal := none }

/-- The startup check; a pruned height passes. -/
def weakSubjectivityOnStartup (cfg : NodeConfig) (storage : Storage) (n : ConsensusNode) : Bool :=
  match cfg.weakSubjectivityCheckpoint with
  | none => true
  | some (cpHeight, cpHash) =>
    if n.lastCommittedHeight < cpHeight then true
    else
      match storage.heights.get? cpHeight with
      | none => true
      | some hash => !weakSubjectivityViolation (some (cpHeight, cpHash)) cpHeight hash

/-! ### Committed reconfigurations -/

section
variable (R : ReconfigPrimitives) (minVEffDelay : ℕ) (chainId : ChainId)

/-- The command and the set it asks for, when it is well formed and no boundary is ahead of
the block. -/
def reconfigChange (history : ValidatorSetHistory) (blockView : ℕ) (bytes : Bytes) :
    Option (ReconfigCommand × ValidatorSet) := do
  if !ReconfigCommand.isReconfigPayload bytes then none
  let cmd ← (ReconfigCommand.decode R bytes).toOption
  let next ← (cmd.validateAgainstWithDelayAndChain R (history.setAt blockView) blockView
    minVEffDelay chainId).toOption
  if history.iter.any fun b => b.1 ≠ 0 && blockView < b.1 then none
  let newSet ← (ValidatorSet.withWeights next).toOption
  return (cmd, newSet)

def registerOperators (h : OperatorKeyHistory) (cmd : ReconfigCommand) (newSet : ValidatorSet) :
    OperatorKeyHistory where
  byStableId := cmd.adds.foldl (fun t entry =>
    match entry.operatorPubkey with
    | none => t
    | some key => if newSet.contains entry.nodeId then register t entry.nodeId cmd.vEff key else t)
    h.byStableId

def registerBlsKeys (h : BlsKeyHistory) (cmd : ReconfigCommand) (newSet : ValidatorSet) :
    BlsKeyHistory where
  byStableId := cmd.adds.foldl (fun t entry =>
    match entry.blsPop with
    | none => t
    | some pop =>
      if newSet.contains entry.nodeId then register t entry.nodeId cmd.vEff pop.pubkey else t)
    h.byStableId

/-- A boundary that only the node's own history takes is kept there. -/
def applyReconfig (n : ConsensusNode) (cmd : ReconfigCommand) (newSet : ValidatorSet) :
    ConsensusNode × Bool :=
  match n.validatorHistory.insertBoundary cmd.vEff newSet with
  | .error _ => (n, false)
  | .ok history =>
    match n.core.insertValidatorBoundary cmd.vEff newSet with
    | .error _ => ({ n with validatorHistory := history }, false)
    | .ok core =>
      ({ n with
          core := core
          selectorHistory := history
          validatorHistory := history
          operatorKeyHistory := registerOperators n.operatorKeyHistory cmd newSet
          blsKeyHistory := n.blsKeyHistory.map fun h => registerBlsKeys h cmd newSet }, true)

def applyReconfigPayload (blockView : ℕ) (progress : ConsensusNode × Bool) (bytes : Bytes) :
    ConsensusNode × Bool :=
  match reconfigChange R minVEffDelay chainId progress.1.validatorHistory blockView bytes with
  | none => progress
  | some (cmd, newSet) =>
    let (n, applied) := progress.1.applyReconfig cmd newSet
    (n, progress.2 || applied)

/-- The node after the block's commands, and whether one was applied. -/
def applyReconfigs (n : ConsensusNode) (block : Block) : ConsensusNode × Bool :=
  block.commands.foldl (applyReconfigPayload R minVEffDelay chainId block.header.view) (n, false)

/-- Histories are written when they have changed. -/
def applyCommittedReconfigs (storage : Storage) (n : ConsensusNode) (block : Block) :
    Storage × ConsensusNode :=
  let (n', applied) := n.applyReconfigs R minVEffDelay chainId block
  ({ storage with
      operatorKeyHistory :=
        if n'.operatorKeyHistory = n.operatorKeyHistory then storage.operatorKeyHistory
        else some n'.operatorKeyHistory.toPersisted
      blsKeyHistory :=
        if n'.blsKeyHistory = n.blsKeyHistory then storage.blsKeyHistory
        else n'.blsKeyHistory.map BlsKeyHistory.toPersisted
      validatorHistory :=
        if applied then some n'.validatorHistory.toPersisted else storage.validatorHistory }, n')

end

/-! ### Commits -/

/-- The heights that fall out of the retention window, with the hashes stored for them. -/
def pruneTargetsForCommit (storage : Storage) (lastCommittedHeight retentionWindow : ℕ) :
    List (ℕ × BlockHash) :=
  if retentionWindow = 0 ∨ lastCommittedHeight < retentionWindow then []
  else storage.heights.toList.filter fun e => e.1 < lastCommittedHeight - retentionWindow

def prune (storage : Storage) (targets : List (ℕ × BlockHash)) : Storage :=
  { storage with
    heights := targets.foldl (fun t e => t.erase e.1) storage.heights
    blocks := targets.foldl (fun t e => t.erase e.2) storage.blocks }

/-- `none` stands for the halt at a violated checkpoint. -/
def applyCommit (P : Primitives) (R : ReconfigPrimitives) (cfg : NodeConfig) (storage : Storage)
    (n : ConsensusNode) (block : Block) : Option (Storage × ConsensusNode) :=
  let n :=
    if n.lastCommittedHeight < block.header.height then
      { n with
        lastCommittedHeight := block.header.height
        lastCommittedView := block.header.view }
    else n
  let blockHash := block.hash P
  if weakSubjectivityViolation cfg.weakSubjectivityCheckpoint block.header.height blockHash then
    none
  else
    let targets := pruneTargetsForCommit storage n.lastCommittedHeight cfg.blockRetentionWindow
    let storage := storage.putBlock blockHash block
    let storage := { storage with
      heights := storage.heights.insert block.header.height blockHash
      lastCommitted := some ⟨n.lastCommittedHeight, n.lastCommittedView, blockHash⟩ }
    some (n.applyCommittedReconfigs R cfg.minVEffDelay (cfg.chainId P) (prune storage targets)
      block)

/-- The committed height and view after a block or a snapshot; a lower one leaves them. -/
def advanced (n : ConsensusNode) (height view : ℕ) : ConsensusNode :=
  if n.lastCommittedHeight < height then
    { n with
      lastCommittedHeight := height
      lastCommittedView := view }
  else n

section
variable (n : ConsensusNode) (height view : ℕ)

theorem advanced_core : (n.advanced height view).core = n.core := by
  unfold advanced
  split_ifs <;> rfl

theorem advanced_validatorHistory :
    (n.advanced height view).validatorHistory = n.validatorHistory := by
  unfold advanced
  split_ifs <;> rfl

theorem advanced_isFull : (n.advanced height view).isFull = n.isFull := by
  unfold advanced
  split_ifs <;> rfl

theorem advanced_stashedProposal :
    (n.advanced height view).stashedProposal = n.stashedProposal := by
  unfold advanced
  split_ifs <;> rfl

theorem advanced_lastCommittedHeight :
    (n.advanced height view).lastCommittedHeight = max n.lastCommittedHeight height := by
  unfold advanced
  split_ifs with hlt
  · exact (max_eq_right (Nat.le_of_lt hlt)).symm
  · exact (max_eq_left (Nat.le_of_not_lt hlt)).symm

end

/-- What the batch of a commit leaves in the storage. -/
def committedStorage (P : Primitives) (cfg : NodeConfig) (storage : Storage) (n : ConsensusNode)
    (block : Block) : Storage :=
  prune { storage.putBlock (block.hash P) block with
      heights := storage.heights.insert block.header.height (block.hash P)
      lastCommitted := some ⟨n.lastCommittedHeight, n.lastCommittedView, block.hash P⟩ }
    (pruneTargetsForCommit storage n.lastCommittedHeight cfg.blockRetentionWindow)

/-- A commit that does not halt advances the node, writes its batch and applies what the block
reconfigures. -/
theorem applyCommit_eq_some {P : Primitives} {R : ReconfigPrimitives} {cfg : NodeConfig}
    {storage : Storage} {n : ConsensusNode} {block : Block} {result : Storage × ConsensusNode}
    (h : n.applyCommit P R cfg storage block = some result) :
    (n.advanced block.header.height block.header.view).applyCommittedReconfigs R
      cfg.minVEffDelay (cfg.chainId P) (committedStorage P cfg storage
        (n.advanced block.header.height block.header.view) block) block = result := by
  have heq : n.applyCommit P R cfg storage block =
      if weakSubjectivityViolation cfg.weakSubjectivityCheckpoint block.header.height
        (block.hash P) then none
      else some ((n.advanced block.header.height block.header.view).applyCommittedReconfigs R
        cfg.minVEffDelay (cfg.chainId P) (committedStorage P cfg storage
          (n.advanced block.header.height block.header.view) block) block) := rfl
  rw [heq] at h
  split_ifs at h
  exact Option.some.inj h

/-! ### Snapshots -/

/-- The batch of a restore: the block, the commit record and the safety record. -/
def writeSnapshot (storage : Storage) (manifest : SnapshotManifest) (actions : List Action) :
    Storage :=
  let storage := storage.putBlock manifest.blockHash manifest.block
  let storage := { storage with
    lastCommitted := some ⟨manifest.height, manifest.view, manifest.blockHash⟩ }
  actions.foldl (fun s a =>
    match a with
    | .persist u => s.put u
    | _ => s) storage

/-- The histories of the manifest, installed after their boundaries are replayed into the
core; what has been replayed stays when a boundary is refused. -/
def installHistories (storage : Storage) (n : ConsensusNode) (manifest : SnapshotManifest) :
    Storage × ConsensusNode × Bool :=
  let decoded := do
    let set ← (ValidatorSetHistory.fromPersisted manifest.validatorHistory).toOption
    let key ← (ValidatorKeyHistory.fromPersisted manifest.validatorKeyHistory).toOption
    let bls ← match manifest.blsKeyHistory with
      | none => some none
      | some p => (BlsKeyHistory.fromPersisted p).toOption.map some
    return (set, key, bls)
  match decoded with
  | none => (storage, n, false)
  | some (set, key, bls) =>
    let (core, replayed) := replayBoundaries n.core set.iter
    if !replayed then (storage, { n with core := core }, false)
    else
      ({ storage with
          validatorHistory := some set.toPersisted
          validatorKeyHistory := some key.toPersisted
          blsKeyHistory := (bls.map BlsKeyHistory.toPersisted).or storage.blsKeyHistory },
        { n with
          core := core
          selectorHistory := set
          validatorSet := set.currentSet
          validatorHistory := set
          validatorKeyHistory := key
          blsKeyHistory := bls }, true)

/-- From the point where the application has restored the payload and its commitment matches
the manifest's. -/
def restoreFromSnapshot (P : Primitives) (storage : Storage) (n : ConsensusNode)
    (manifest : SnapshotManifest) : Storage × ConsensusNode × Bool :=
  let (core, actions) := n.core.adoptSnapshot P manifest.block manifest.commitQc manifest.view
  let storage := writeSnapshot storage manifest actions
  let n := { n with core := core }
  let n :=
    if n.lastCommittedHeight < manifest.height then
      { n with lastCommittedHeight := manifest.height, lastCommittedView := manifest.view }
    else n
  installHistories storage n manifest

/-- The node after `adopt_snapshot`. -/
def adopt (P : Primitives) (n : ConsensusNode) (m : SnapshotManifest) : ConsensusNode :=
  { n with core := (n.core.adoptSnapshot P m.block m.commitQc m.view).1 }

/-- The committed height follows the manifest's when that is larger. -/
def raiseCommitted (n : ConsensusNode) (m : SnapshotManifest) : ConsensusNode :=
  if n.lastCommittedHeight < m.height then
    { n with lastCommittedHeight := m.height, lastCommittedView := m.view }
  else n

theorem raiseCommitted_eq_advanced (n : ConsensusNode) (m : SnapshotManifest) :
    n.raiseCommitted m = n.advanced m.height m.view := rfl

theorem lastCommittedHeight_raiseCommitted (n : ConsensusNode) (m : SnapshotManifest) :
    (n.raiseCommitted m).lastCommittedHeight = max n.lastCommittedHeight m.height :=
  n.advanced_lastCommittedHeight m.height m.view

theorem core_raiseCommitted_adopt (P : Primitives) (n : ConsensusNode) (m : SnapshotManifest) :
    ((n.adopt P m).raiseCommitted m).core =
      (n.core.adoptSnapshot P m.block m.commitQc m.view).1 :=
  (n.adopt P m).advanced_core m.height m.view

theorem restoreFromSnapshot_eq (P : Primitives) (storage : Storage) (n : ConsensusNode)
    (m : SnapshotManifest) :
    n.restoreFromSnapshot P storage m = installHistories (writeSnapshot storage m
      (n.core.adoptSnapshot P m.block m.commitQc m.view).2) ((n.adopt P m).raiseCommitted m) m :=
  rfl

end ConsensusNode

end Boule
