import Boule.ConsensusParams
import Boule.EndpointRegistry
import Boule.Node.CommitRecord
import Boule.Node.Heard

/-! A commit write by write: the batch of the block and the commit record, and then one put for
each history that the block has changed. A crash may come between any two of them. -/
namespace Boule
open ConsensusNode

/-- The decoders and signature checks of everything that a commit reads from a block. -/
structure CommitPrimitives extends HistoryPrimitives where
  decodeEndpoint : Bytes → Option SignedEndpointCommand
  endpointVerifies : NodeId → EndpointCommand → ChainId → ℕ → Bool
  decodeParamUpdate : Bytes → Option ConsensusParamUpdate

structure NodeConfigForConsensus extends NodeConfig where
  minBlockIntervalMs : ℕ
  maxEndpointListLength : ℕ

/-- The node with its consensus parameters and its registry of endpoints. -/
structure RunningNode where
  node : ConsensusNode
  params : ConsensusParamHistory
  minBlockIntervalMs : ℕ
  endpoints : EndpointRegistry
  deriving DecidableEq

structure DurableStore where
  storage : Storage
  params : Option PersistedConsensusParamHistory
  endpoints : Option EndpointRegistry
  deriving DecidableEq

/-- One put under the key of a history. -/
inductive HistoryWrite where
  | operator (persisted : PersistedKeyHistory)
  | bls (persisted : PersistedKeyHistory)
  | endpoints (registry : EndpointRegistry)
  | validators (persisted : PersistedValidatorHistory)
  | key (persisted : PersistedKeyHistory)
  | params (persisted : PersistedConsensusParamHistory)
  deriving DecidableEq

namespace DurableStore

def empty : DurableStore := ⟨.empty, none, none⟩

def write (s : DurableStore) : HistoryWrite → DurableStore
  | .operator p => { s with storage := { s.storage with operatorKeyHistory := some p } }
  | .bls p => { s with storage := { s.storage with blsKeyHistory := some p } }
  | .endpoints r => { s with endpoints := some r }
  | .validators p => { s with storage := { s.storage with validatorHistory := some p } }
  | .key p => { s with storage := { s.storage with validatorKeyHistory := some p } }
  | .params p => { s with params := some p }

end DurableStore

/-! ### Reconfigurations -/

/-- The endpoints that a newcomer brings. -/
def seedNewcomer (newSet : ValidatorSet) (progress : EndpointRegistry × Bool)
    (entry : ValidatorEntry) : EndpointRegistry × Bool :=
  if entry.initialEndpoints.isEmpty || !newSet.contains entry.nodeId then progress
  else
    let seeded := progress.1.seed entry.nodeId entry.initialEndpoints
    (keepOnError seeded progress.1, progress.2 || seeded.isOk)

def forgetRemoved (progress : EndpointRegistry × Bool) (id : NodeId) : EndpointRegistry × Bool :=
  ((progress.1.forget id).1, progress.2 || (progress.1.forget id).2)

/-- The endpoints after a reconfiguration, and whether it has seeded or forgotten any. -/
def reconfigEndpoints (r : EndpointRegistry) (cmd : ReconfigCommand) (newSet : ValidatorSet) :
    EndpointRegistry × Bool :=
  cmd.removes.foldl forgetRemoved (cmd.adds.foldl (seedNewcomer newSet) (r, false))

section
variable (R : ReconfigPrimitives) (minVEffDelay : ℕ) (chainId : ChainId)

/-- What the loop over reconfigurations has changed so far. -/
structure ReconfigProgress where
  node : ConsensusNode
  applied : Bool
  endpoints : EndpointRegistry
  endpointsChanged : Bool

/-- A change that the node applies changes its endpoints, too. -/
def ReconfigProgress.change (p : ReconfigProgress) (cmd : ReconfigCommand)
    (newSet : ValidatorSet) : ReconfigProgress :=
  let (n, applied) := p.node.applyReconfig cmd newSet
  if applied then
    let e := reconfigEndpoints p.endpoints cmd newSet
    ⟨n, true, e.1, p.endpointsChanged || e.2⟩
  else { p with node := n }

def applyReconfigWithEndpoints (blockView : ℕ) (p : ReconfigProgress) (bytes : Bytes) :
    ReconfigProgress :=
  match reconfigChange R minVEffDelay chainId p.node.validatorHistory blockView bytes with
  | none => p
  | some (cmd, newSet) => p.change cmd newSet

def RunningNode.applyReconfigs (r : RunningNode) (block : Block) : ReconfigProgress :=
  block.commands.foldl (applyReconfigWithEndpoints R minVEffDelay chainId block.header.view)
    ⟨r.node, false, r.endpoints, false⟩

/-- The puts of `apply_committed_reconfigs`, in order. -/
def ReconfigProgress.writes (p : ReconfigProgress) (before : ConsensusNode) :
    List HistoryWrite :=
  (if p.node.operatorKeyHistory = before.operatorKeyHistory then []
    else [.operator p.node.operatorKeyHistory.toPersisted]) ++
  (if p.node.blsKeyHistory = before.blsKeyHistory then []
    else (p.node.blsKeyHistory.map fun b => .bls b.toPersisted).toList) ++
  (if p.endpointsChanged then [.endpoints p.endpoints] else []) ++
  (if p.applied then [.validators p.node.validatorHistory.toPersisted] else [])

end

/-! ### Rotations -/

/-- What the four loops of `apply_committed_rotations` end with, and what they have changed. -/
structure RotationOutcome where
  histories : Histories
  applied : Bool
  operator : OperatorKeyHistory
  operatorChanged : Bool

/-- The loops of `apply_committed_rotations`. -/
def ConsensusNode.rotationOutcome (R : HistoryPrimitives) (chainId : ChainId) (n : ConsensusNode)
    (block : Block) : Option RotationOutcome := do
  let blockView := block.header.view
  let rotated ← block.commands.foldlM (applyCommittedRotation R chainId blockView)
    (n.histories, false)
  let cancelled := block.commands.foldl
    (noteApplied (applyRotationCancelCommand R chainId blockView)) rotated
  let (h, applied) := block.commands.foldl
    (noteApplied (applyOperatorRotationCommand R chainId blockView n.operatorKeyHistory))
    cancelled
  let (operator, operatorChanged) := block.commands.foldl
    (noteApplied (applyOperatorKeyRotationCommand R chainId blockView))
    (n.operatorKeyHistory, false)
  return ⟨h, applied, operator, operatorChanged⟩

namespace RotationOutcome

def node (o : RotationOutcome) (n : ConsensusNode) : ConsensusNode :=
  { n with
    validatorKeyHistory := o.histories.key
    blsKeyHistory := o.histories.bls
    operatorKeyHistory := o.operator }

/-- The puts of `apply_committed_rotations`, in order. -/
def writes (o : RotationOutcome) : List HistoryWrite :=
  (if o.operatorChanged then [.operator o.operator.toPersisted] else []) ++
  (if o.applied then .key o.histories.key.toPersisted ::
    (o.histories.bls.map fun b => .bls b.toPersisted).toList else [])

end RotationOutcome

/-! ### Endpoints and parameters -/

section
variable (E : CommitPrimitives) (chainId : ChainId)

/-- A signed command of a member of the set, under the member's key. -/
def acceptedEndpoint (set : ValidatorSetHistory) (key : ValidatorKeyHistory) (blockView : ℕ)
    (bytes : Bytes) : Option EndpointCommand := do
  let signed ← decodeTagged endpointTag E.decodeEndpoint bytes
  let cmd := signed.payload
  let _ ← (set.setAt blockView).indexOf cmd.validator
  let active ← key.keyAt cmd.validator blockView
  if E.endpointVerifies active cmd chainId signed.sig then some cmd else none

def applyCommittedEndpoint (set : ValidatorSetHistory) (key : ValidatorKeyHistory)
    (blockView : ℕ) (progress : EndpointRegistry × Bool) (bytes : Bytes) :
    EndpointRegistry × Bool :=
  match acceptedEndpoint E chainId set key blockView bytes with
  | none => progress
  | some cmd =>
    let applied := progress.1.apply cmd
    (applied.1, progress.2 || applied.2.isOk)

/-- With whether a command was applied. -/
def applyCommittedEndpoints (set : ValidatorSetHistory) (key : ValidatorKeyHistory)
    (block : Block) (r : EndpointRegistry) : EndpointRegistry × Bool :=
  block.commands.foldl (applyCommittedEndpoint E chainId set key block.header.view) (r, false)

/-- With whether a boundary was inserted. -/
def applyCommittedParamUpdates (block : Block) (h : ConsensusParamHistory) :
    ConsensusParamHistory × Bool :=
  block.commands.foldl
    (noteApplied (applyParamUpdateCommand E.decodeParamUpdate block.header.view)) (h, false)

end

/-! ### A commit -/

/-- A commit after its batch: the store, the node as it will be, and the puts to come. -/
structure CommitOutcome where
  store : DurableStore
  node : RunningNode
  writes : List HistoryWrite
  deriving DecidableEq

section
variable (P : Primitives) (E : CommitPrimitives) (cfg : NodeConfigForConsensus)

/-- The committed block in the node's histories, and the puts that follow from it; `none` stands
for a failed `expect`. -/
def RunningNode.applyBlock (r : RunningNode) (block : Block) :
    Option (RunningNode × List HistoryWrite) := do
  let chainId := cfg.chainId P
  let reconfigured := r.applyReconfigs E.toReconfigPrimitives cfg.minVEffDelay chainId block
  let rotated ← reconfigured.node.rotationOutcome E.toHistoryPrimitives chainId block
  let n := rotated.node reconfigured.node
  let published := applyCommittedEndpoints E chainId n.validatorHistory n.validatorKeyHistory
    block reconfigured.endpoints
  let updated := applyCommittedParamUpdates E block r.params
  return (⟨n, updated.1, (updated.1.paramsAt block.header.view).minBlockIntervalMs, published.1⟩,
    reconfigured.writes r.node ++ rotated.writes ++
      (if published.2 then [.endpoints published.1] else []) ++
      (if updated.2 then [.params updated.1.toPersisted] else []))

/-- `none` stands for a halt. -/
def RunningNode.commit (r : RunningNode) (s : DurableStore) (block : Block) :
    Option CommitOutcome := do
  let (storage, n) ← r.node.commitBatch P cfg.toNodeConfig s.storage block
  let (node, writes) ← RunningNode.applyBlock P E cfg { r with node := n } block
  return ⟨{ s with storage := storage }, node, writes⟩

/-- Parameters that do not decode are those of genesis. -/
def loadParamHistory (genesis : ConsensusParamHistory) :
    Option PersistedConsensusParamHistory → ConsensusParamHistory
  | none => genesis
  | some p => keepOnError (ConsensusParamHistory.fromPersisted p) genesis

/-- `recover` with the parameters and the endpoints. -/
def recoverRunning (s : DurableStore) : Option RunningNode := do
  let n ← recover P cfg.toNodeConfig s.storage
  let params := loadParamHistory (.new ⟨cfg.minBlockIntervalMs⟩) s.params
  let endpoints := (s.endpoints.getD (.new cfg.maxEndpointListLength)).setMaxLen
    cfg.maxEndpointListLength
  return ⟨n, params, (params.paramsAt n.lastCommittedView).minBlockIntervalMs, endpoints⟩

end

/-! ### Runs -/

/-- A store, the node that runs on it, the puts of its last commit that are still to come, and the
blocks whose batch has been written. -/
structure CommitSystem where
  store : DurableStore
  node : Option RunningNode
  pending : List HistoryWrite
  chain : List Block
  deriving DecidableEq

inductive CommitInput where
  | start
  | commit (block : Block)
  | put
  | stop
  deriving DecidableEq

namespace CommitSystem

/-- Nothing is stored and nothing runs. -/
def fresh : CommitSystem := ⟨.empty, none, [], []⟩

/-- A commit begins when the last one has made all its puts. A stop, clean or not, may come at any
time. -/
def step (P : Primitives) (E : CommitPrimitives) (cfg : NodeConfigForConsensus)
    (s : CommitSystem) : CommitInput → CommitSystem
  | .start =>
    match s.node with
    | none => { s with node := recoverRunning P cfg s.store }
    | some _ => s
  | .commit block =>
    match s.node, s.pending with
    | some r, [] =>
      match r.commit P E cfg s.store block with
      | none => { s with node := none }
      | some o => ⟨o.store, some o.node, o.writes, s.chain ++ [block]⟩
    | _, _ => s
  | .put =>
    match s.pending with
    | [] => s
    | w :: ws => { s with store := s.store.write w, pending := ws }
  | .stop => { s with node := none, pending := [] }

end CommitSystem

end Boule
