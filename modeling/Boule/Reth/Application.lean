import Boule.Lib.Run
import Boule.Reth.Staking

/-! The application over the execution layer: what the commit of a block does to its frontier, to
its ledger of stakes and to the weights that the registry does not have yet. -/
namespace Boule

/-! ### Effects of a block -/

inductive ValidatorEffect where
  | keyRotation (command : Bytes)
  | endpointUpdate (command : Bytes)
  | paramUpdate (command : Bytes)
  | reconfig (command : Bytes)
  deriving DecidableEq

def rotationAddress : Address := 0xb0f

def endpointAddress : Address := 0xb10

def paramAddress : Address := 0xb11

def governanceAddress : Address := 0xb14

def rotationTopic : Bytes32 := 0xde7f9466fbeb5e013694b9e04812cc106a0a764766c202e2f88a480ee27120d1

def endpointTopic : Bytes32 := 0x26a38d91fc47b4cd0e93f73c87346a4236d696ffe5a241f95c33fc2670d28349

def paramTopic : Bytes32 := 0x27d1e5d546bb0a37e323040c28412ac11a38a95061bbe56c3f95d635f8826a0b

def approvedTopic : Bytes32 := 0xd686e9e9eda221dfab37aa6cae405e85e661ed8e45cbe791790ed38093d85b75

/-- `None` where a high byte is set. -/
def wordToUsize (word : Bytes) : Option ℕ :=
  if (word.take 24).any (· ≠ 0) then none
  else some (fromDigits 256 ((word.drop 24).map UInt8.toNat))

def decodeAbiBytes (raw : Bytes) : Option Bytes :=
  if raw.length < 64 then none
  else if wordToUsize (raw.take 32) ≠ some 32 then none
  else
    (wordToUsize ((raw.drop 32).take 32)).bind fun len =>
      if raw.length < 64 + len then none else some ((raw.drop 64).take len)

def parseCommandLogs (topic : Bytes32) (logs : List Log) : List Bytes :=
  (logs.filter fun log => log.topics.head? = some topic).filterMap fun log =>
    decodeAbiBytes log.data

/-- Rotations, endpoints, parameters and governance, in this order. -/
def derivePredeployEffects (logs : List Log) : List ValidatorEffect :=
  let derive := fun address topic (wrap : Bytes → ValidatorEffect) =>
    (parseCommandLogs topic (getLogs address [topic] logs)).map wrap
  derive rotationAddress rotationTopic .keyRotation ++
    derive endpointAddress endpointTopic .endpointUpdate ++
    derive paramAddress paramTopic .paramUpdate ++
    derive governanceAddress approvedTopic .reconfig

/-! ### Blocks -/

/-- A receipt as `eth_getBlockReceipts` returns it. -/
structure Receipt where
  txType : ℕ
  success : Bool
  cumulativeGasUsed : ℕ
  logs : List Log
  deriving DecidableEq

/-- An executed payload: what it reads of its header, its receipts, from which its `receiptsRoot`
comes, and the weights in its `extraData`. -/
structure ExecutionPayload where
  blockNumber : Option ℕ
  stateRoot : Bytes32
  receipts : List Receipt
  weights : List (NodeId × ℕ)
  deriving DecidableEq

/-- The logs of a block are those of its receipts. -/
def ExecutionPayload.logs (p : ExecutionPayload) : List Log := p.receipts.flatMap Receipt.logs

/-- A block of the chain as the application reads it, with the validators that its evidence
convicts. -/
structure RethBlock where
  hash : BlockHash
  parentHash : BlockHash
  height : ℕ
  payload : Option ExecutionPayload
  offenders : List NodeId
  deriving DecidableEq

/-- A block that may back a weight, with its receipts. -/
structure SourceCandidate where
  blockHash : BlockHash
  receipts : List Receipt
  deriving DecidableEq

namespace RethBlock

def receipts (b : RethBlock) : List Receipt := (b.payload.map ExecutionPayload.receipts).getD []

def logs (b : RethBlock) : List Log := (b.payload.map ExecutionPayload.logs).getD []

/-- The weights that the payload carries. -/
def weights (b : RethBlock) : List (NodeId × ℕ) :=
  (b.payload.map ExecutionPayload.weights).getD []

def source (b : RethBlock) : SourceCandidate := ⟨b.hash, b.receipts⟩

end RethBlock

/-! ### The application -/

/-- Both calls of `commit` answered `VALID`, one of them `SYNCING`, or one failed. -/
inductive ElAnswer where
  | valid
  | syncing
  | failed
  deriving DecidableEq

structure CommitResult where
  validatorUpdates : List ValidatorUpdate
  effects : List ValidatorEffect
  deriving DecidableEq

/-- Height and state root of what was executed last. -/
structure Frontier where
  height : ℕ
  stateRoot : Bytes32
  deriving DecidableEq

/-- `u64` subtraction as an unchecked release build computes it. -/
def subU64 (a b : ℕ) : ℕ := (a + 2 ^ 64 - b) % 2 ^ 64

/-- The staking operations of a block, then its slashes. -/
def BondedStakeLedger.absorb (l : BondedStakeLedger) (height : ℕ) (logs : List Log) :
    BondedStakeLedger :=
  let ops := parseStakeLogs (getLogs stakingAddress [depositTopic, withdrawTopic] logs)
  let slashed := parseSlashedLogs (getLogs slashingAddress [slashedTopic] logs)
  slashed.foldl slash (ops.foldl (fun l op => l.apply op.1 op.2) (l.advanceToHeight height))

def maxWeightProofAnchorLag : ℕ := 8

structure RethApplication where
  committed : Frontier
  stakeSource : BondedStakeLedger
  pendingWeights : Table NodeId ℕ
  recentCommitted : List SourceCandidate
  deriving DecidableEq

namespace RethApplication

def start (genesis : List (NodeId × ℕ)) (genesisRoot : Bytes32) : RethApplication where
  committed := ⟨0, genesisRoot⟩
  stakeSource := .seededFrom genesis
  pendingWeights := ∅
  recentCommitted := []

/-- `reconcile_pending_weights` -/
def reconcilePendingWeights (pending : Table NodeId ℕ) (carried : List (NodeId × ℕ))
    (updates : List ValidatorUpdate) : Table NodeId ℕ :=
  let rest := carried.foldl (fun t e => if t.get? e.1 = some e.2 then t.erase e.1 else t) pending
  updates.foldl (fun t u => t.insert u.nodeId u.weight) rest

section
variable (logsAt : ℕ → List Log)

/-- The loop over the gap; reth is asked for the logs of a block by its number. -/
def backfillGap (currentNumber height : ℕ) (heights : List ℕ) (ledger : BondedStakeLedger) :
    BondedStakeLedger × List ValidatorEffect :=
  heights.foldl (fun r h =>
    let evmNumber := subU64 currentNumber (height - h)
    (r.1.absorb h (logsAt evmNumber), r.2 ++ derivePredeployEffects (logsAt evmNumber)))
    (ledger, [])

def backfillSelfSyncedGap (ledger : BondedStakeLedger) (blockNumber : Option ℕ)
    (prevHeight height : ℕ) : BondedStakeLedger × List ValidatorEffect :=
  if height ≤ prevHeight + 1 then (ledger, [])
  else
    match blockNumber with
    | none => (ledger, [])
    | some currentNumber =>
      backfillGap logsAt currentNumber height
        (List.range' (prevHeight + 1) (height - (prevHeight + 1))) ledger

/-- `none` when a call fails. -/
def commit (a : RethApplication) (b : RethBlock) (answer : ElAnswer) :
    RethApplication × Option CommitResult :=
  match b.payload with
  | none => (a, some ⟨[], []⟩)
  | some payload =>
    match answer with
    | .failed => (a, none)
    | .syncing => (a, some ⟨[], []⟩)
    | .valid =>
      let (ledger, gapEffects) := backfillSelfSyncedGap logsAt a.stakeSource payload.blockNumber
        a.committed.height b.height
      let ring := a.recentCommitted ++ [b.source]
      let (ledger, updates) := ledger.deriveValidatorUpdates b.height payload.logs
      ({ committed := ⟨b.height, payload.stateRoot⟩
         stakeSource := ledger
         pendingWeights := reconcilePendingWeights a.pendingWeights payload.weights updates
         recentCommitted := ring.drop (ring.length - (maxWeightProofAnchorLag + 2)) },
        some ⟨updates, gapEffects ++ derivePredeployEffects payload.logs⟩)

end

/-- The weights of `registry_payload_for_build`, in the order of the ids. -/
def weightsForBuild (a : RethApplication) : List (NodeId × ℕ) :=
  a.pendingWeights.toList.insertionSort fun x y => x.1 ≤ y.1

def slash (a : RethApplication) (node : NodeId) : RethApplication :=
  { a with stakeSource := a.stakeSource.slash node }

/-- What `commit_block` does to the application: the commit, and then a slash for each validator
that the evidence of the block convicts. -/
def commitBlock (logsAt : ℕ → List Log) (a : RethApplication) (b : RethBlock) (answer : ElAnswer) :
    RethApplication :=
  b.offenders.foldl slash (a.commit logsAt b answer).1

theorem stakeSource_slashes (a : RethApplication) (nodes : List NodeId) :
    (nodes.foldl slash a).stakeSource = nodes.foldl .slash a.stakeSource := by
  induction nodes generalizing a with
  | nil => rfl
  | cons node nodes ih => exact ih (a.slash node)

theorem pendingWeights_slashes (a : RethApplication) (nodes : List NodeId) :
    (nodes.foldl slash a).pendingWeights = a.pendingWeights := by
  induction nodes generalizing a with
  | nil => rfl
  | cons node nodes ih => exact ih (a.slash node)

theorem committed_slashes (a : RethApplication) (nodes : List NodeId) :
    (nodes.foldl slash a).committed = a.committed := by
  induction nodes generalizing a with
  | nil => rfl
  | cons node nodes ih => exact ih (a.slash node)

def stateCommitment (a : RethApplication) : Bytes32 := a.committed.stateRoot

def recoverFrontier (a : RethApplication) (height : ℕ) (stateRoot : Bytes32) : RethApplication :=
  { a with committed := ⟨height, stateRoot⟩ }

/-- `restore` of a snapshot, which holds a height and a root. -/
def restore (a : RethApplication) (snapshot : Frontier) : RethApplication :=
  { a with committed := snapshot }

end RethApplication

end Boule
