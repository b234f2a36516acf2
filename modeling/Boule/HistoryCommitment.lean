import Boule.Node.ConsensusNode
import Boule.Rotation

/-! The four histories of a chain: the pure replay of a block's commands into them, and the
commitment that a header carries. -/
namespace Boule

structure Histories where
  set : ValidatorSetHistory
  key : ValidatorKeyHistory
  bls : Option BlsKeyHistory
  operator : Option OperatorKeyHistory
  deriving DecidableEq

inductive RotationCancelError where
  | malformed
  | unknownValidator
  | noPendingRotation
  | verify (e : RotationVerifyError)
  | history (e : HistoryError)
  deriving DecidableEq

inductive OperatorRotationError where
  | malformed
  | unknownValidator
  | noOperatorKey
  | verify (e : RotationVerifyError)
  | scheme (e : RotationStructuralError)
  | history (e : HistoryError)
  deriving DecidableEq

inductive OperatorKeyRotationError where
  | malformed
  | noOperatorKey
  | verify (e : RotationVerifyError)
  | history (e : KeyEntriesError)
  deriving DecidableEq

/-- `let _ =` on an update: an error leaves the value as it was. -/
def keepOnError {ε α : Type} (r : Except ε α) (a : α) : α := r.toOption.getD a

section
variable (R : HistoryPrimitives) (chainId : ChainId) (commitView : ℕ)

/-! ### The command kinds that both paths share

Each returns the histories and whether the command was of its kind. -/

def applyRotationCancelCommand (h : Histories) (bytes : Bytes) :
    Except RotationCancelError (Histories × Bool) :=
  if !rotationCancelTag.isPrefixOf bytes then .ok (h, false)
  else do
    let cancel ← okOr (decodeTagged rotationCancelTag R.decodeCancel bytes) .malformed
    let validator := cancel.payload.validator
    let cancellingVEff := cancel.payload.cancellingVEff
    let pendingNew ← okOr (h.key.pendingRotationNewKey validator cancellingVEff commitView)
      .noPendingRotation
    let stable ← okOr (h.key.validatorFor validator) .unknownValidator
    let currentKey ← okOr (h.key.keyAt stable commitView) .unknownValidator
    (cancel.verify R chainId currentKey pendingNew).mapError .verify
    let key ← (h.key.cancelPendingRotation validator cancellingVEff commitView).mapError .history
    return ({ h with
      key := key
      bls := h.bls.map fun bls =>
        keepOnError (bls.cancelPendingRotation stable cancellingVEff commitView) bls }, true)

/-- The new BLS key of a rotation, when it has one and there is a history for it. -/
def rotateBls (bls : Option BlsKeyHistory) (stable : NodeId) (rotation : ValidatorKeyRotation) :
    Option BlsKeyHistory :=
  match rotation.newBlsPubkey with
  | none => bls
  | some pk => bls.map fun bls => keepOnError (bls.applyRotation stable rotation.vEff pk) bls

def applyOperatorRotationCommand (operator : OperatorKeyHistory) (h : Histories)
    (bytes : Bytes) : Except OperatorRotationError (Histories × Bool) :=
  if !operatorRotationTag.isPrefixOf bytes then .ok (h, false)
  else do
    let env ← okOr (decodeTagged operatorRotationTag R.decodeOperatorRotation bytes) .malformed
    let stable ← okOr (h.key.validatorFor env.payload.validator) .unknownValidator
    let operatorPk ← okOr (operator.keyAt stable commitView) .noOperatorKey
    (env.verify R chainId operatorPk).mapError .verify
    (env.payload.validateSchemeConsistency R chainId).mapError .scheme
    let key ← (h.key.applyRotation env.payload commitView).mapError .history
    return ({ h with key := key, bls := rotateBls h.bls stable env.payload }, true)

def applyOperatorKeyRotationCommand (operator : OperatorKeyHistory) (bytes : Bytes) :
    Except OperatorKeyRotationError (OperatorKeyHistory × Bool) :=
  if !operatorKeyRotationTag.isPrefixOf bytes then .ok (operator, false)
  else do
    let env ← okOr (decodeTagged operatorKeyRotationTag R.decodeOperatorKeyRotation bytes)
      .malformed
    let currentOperator ← okOr (operator.keyAt env.payload.validator commitView) .noOperatorKey
    (env.verify R chainId currentOperator).mapError .verify
    let operator ← (operator.applyRotation env.payload.validator env.payload.vEff
      env.payload.newOperatorPubkey).mapError .history
    return (operator, true)

/-- The rotation of a command and the validator it names, with the key history it leads to. The
two rotation loops agree up to this point. -/
def acceptedRotation (key : ValidatorKeyHistory) (bytes : Bytes) :
    Option (ValidatorKeyRotation × Option ValidatorId × ValidatorKeyHistory) := do
  let env ← decodeTagged rotationTag R.decodeRotation bytes
  let currentKey ← key.currentKey env.payload.validator
  (env.verify R chainId currentKey).toOption
  (env.payload.validateSchemeConsistency R chainId).toOption
  let key' ← (key.applyRotation env.payload commitView).toOption
  return (env.payload, key.validatorFor env.payload.validator, key')

end

/-! ### Replay -/

section
variable (R : HistoryPrimitives) (minVEffDelay : ℕ) (chainId : ChainId)

/-- Members that the history does not know are added with their ids as keys. -/
def seatMembers (key : ValidatorKeyHistory) (vEff : ℕ) (members : List ValidatorId) :
    ValidatorKeyHistory :=
  members.foldl (fun key member =>
    if key.byStableId.containsKey member then key
    else keepOnError (key.addValidator member vEff) key) key

def applyReconfigCommandToSetHistory (blockView : ℕ) (h : Histories) (bytes : Bytes) :
    Histories :=
  match ConsensusNode.reconfigChange R.toReconfigPrimitives minVEffDelay chainId h.set blockView
    bytes with
  | none => h
  | some (cmd, newSet) =>
    match h.set.insertBoundary cmd.vEff newSet with
    | .error _ => h
    | .ok set =>
      { set := set
        key := seatMembers h.key cmd.vEff newSet.members
        bls := h.bls.map fun bls => ConsensusNode.registerBlsKeys bls cmd newSet
        operator := h.operator.map fun op => ConsensusNode.registerOperators op cmd newSet }

def applyReconfigCommandsToSetHistory (block : Block) (h : Histories) : Histories :=
  block.commands.foldl
    (applyReconfigCommandToSetHistory R minVEffDelay chainId block.header.view) h

def applyRotationCommand (blockView : ℕ) (h : Histories) (bytes : Bytes) : Histories :=
  match acceptedRotation R chainId blockView h.key bytes with
  | none => h
  | some (_, none, key) => { h with key := key }
  | some (rotation, some stable, key) =>
    { h with key := key, bls := rotateBls h.bls stable rotation }

def cancelRotations (block : Block) (h : Histories) : Histories :=
  block.commands.foldl (fun h bytes =>
    ((applyRotationCancelCommand R chainId block.header.view h bytes).toOption.map
      Prod.fst).getD h) h

def applyOperatorRotations (operator : OperatorKeyHistory) (block : Block) (h : Histories) :
    Histories :=
  block.commands.foldl (fun h bytes =>
    ((applyOperatorRotationCommand R chainId block.header.view operator h bytes).toOption.map
      Prod.fst).getD h) h

def applyOperatorKeyRotations (block : Block) (operator : OperatorKeyHistory) :
    OperatorKeyHistory :=
  block.commands.foldl (fun op bytes =>
    ((applyOperatorKeyRotationCommand R chainId block.header.view op bytes).toOption.map
      Prod.fst).getD op) operator

/-- The four loops in order: rotations, cancels, operator rotations, operator-key rotations. -/
def applyRotationCommandsToHistories (block : Block) (h : Histories) : Histories :=
  let h := block.commands.foldl (applyRotationCommand R chainId block.header.view) h
  let h := cancelRotations R chainId block h
  match h.operator with
  | none => h
  | some op =>
    { applyOperatorRotations R chainId op block h with
      operator := some (applyOperatorKeyRotations R chainId block op) }

/-- One block of the replay. -/
def replayBlock (h : Histories) (block : Block) : Histories :=
  applyRotationCommandsToHistories R chainId block
    (applyReconfigCommandsToSetHistory R minVEffDelay chainId block h)

/-- `validator_history_commitment_v2`; a missing operator history counts as an empty one. -/
def validatorHistoryCommitmentV2 (h : Histories) : Bytes32 :=
  R.historyHash h.set.toPersisted h.key.toPersisted (h.bls.map BlsKeyHistory.toPersisted)
    ((h.operator.map OperatorKeyHistory.toPersisted).getD ⟨[]⟩)

end

def computePostBlockCommitment (R : HistoryPrimitives) (block : Block)
    (setHistory : ValidatorSetHistory) (keyHistory : ValidatorKeyHistory)
    (blsKeyHistory : Option BlsKeyHistory) (operatorKeyHistory : Option OperatorKeyHistory)
    (chainId : ChainId) (minVEffDelay : ℕ) : Bytes32 :=
  validatorHistoryCommitmentV2 R (replayBlock R minVEffDelay chainId
    ⟨setHistory, keyHistory, blsKeyHistory, operatorKeyHistory⟩ block)

/-- Ingress and stamping with the commitments of this chain. -/
def Verifier.overHistories (V : Verifier) (R : HistoryPrimitives) : Verifier :=
  { V with postBlockCommitment := computePostBlockCommitment R }

end Boule
