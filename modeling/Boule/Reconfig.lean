import Boule.Dispatch.Wire

/-! Reconfiguration commands and their validation against the set in force. -/
namespace Boule

/-- `b"RECFG\0"` -/
def reconfigTag : Bytes := [0x52, 0x45, 0x43, 0x46, 0x47, 0x00]

def minValidatorFloor : ℕ := 4

/-- `MIN_V_EFF_DELAY` -/
def delayFloor : ℕ := 4

/-- A socket address, in its encoded form: it is only ever signed. -/
abbrev SocketAddr := Bytes

structure EndpointEntry where
  networkId : NodeId
  networkAddress : SocketAddr
  deriving DecidableEq

structure BlsPop where
  pubkey : BlsPublicKey
  sig : BlsPartialSig
  deriving DecidableEq

structure ValidatorEntry where
  nodeId : NodeId
  addr : SocketAddr
  blsPop : Option BlsPop
  weight : UInt64
  operatorPubkey : Option NodeId
  consentSig : Option ℕ
  initialEndpoints : List EndpointEntry
  deriving DecidableEq

structure WeightChange where
  nodeId : NodeId
  weight : UInt64
  deriving DecidableEq

structure ReconfigCommand where
  adds : List ValidatorEntry
  removes : List NodeId
  changes : List WeightChange
  vEff : ℕ
  deriving DecidableEq

/-- What an operator signs to let its validator be added. -/
structure ReconfigAddConsent where
  nodeId : NodeId
  addr : SocketAddr
  blsPop : Option BlsPop
  weight : UInt64
  operatorPubkey : NodeId
  vEff : ℕ
  initialEndpoints : List EndpointEntry
  deriving DecidableEq

def ReconfigAddConsent.forEntry (entry : ValidatorEntry) (vEff : ℕ) : Option ReconfigAddConsent :=
  entry.operatorPubkey.map fun operatorPubkey =>
    { nodeId := entry.nodeId
      addr := entry.addr
      blsPop := entry.blsPop
      weight := entry.weight
      operatorPubkey := operatorPubkey
      vEff := vEff
      initialEndpoints := entry.initialEndpoints }

/-- The postcard decoder and the signature checks that reconfiguration uses. -/
structure ReconfigPrimitives where
  decodeBody : Bytes → Option ReconfigCommand
  popVerifies : BlsPop → ChainId → Bool
  consentVerifies : ReconfigAddConsent → ℕ → ChainId → Bool

inductive ReconfigError where
  | missingTag
  | malformed
  | delayOverflow (currentView delay : ℕ)
  | tooSoon (vEff currentView delay : ℕ)
  | zeroWeightAdd (nodeId : NodeId)
  | zeroWeightChange (nodeId : NodeId)
  | duplicateAdd (nodeId : NodeId)
  | duplicateRemove (nodeId : NodeId)
  | duplicateChange (nodeId : NodeId)
  | addedAndRemoved (nodeId : NodeId)
  | addedAndChanged (nodeId : NodeId)
  | removedAndChanged (nodeId : NodeId)
  | removeNonMember (nodeId : NodeId)
  | addMember (nodeId : NodeId)
  | changeNonMember (nodeId : NodeId)
  | popInvalid (nodeId : NodeId)
  | popMissing (nodeId : NodeId)
  | consentMissing (nodeId : NodeId)
  | consentInvalid (nodeId : NodeId)
  | belowFloor (size floor : ℕ)
  deriving DecidableEq

/-- The first id that occurs a second time. -/
def firstDuplicate : List NodeId → List NodeId → Option NodeId
  | _, [] => none
  | seen, n :: ns => if n ∈ seen then some n else firstDuplicate (n :: seen) ns

/-- The least id in both lists. -/
def leastCommon (xs ys : List NodeId) : Option NodeId := (sortedSet xs).find? (· ∈ ys)

/-- Sets the weight of the first entry with the change's id. -/
def setWeight (change : WeightChange) : List (NodeId × UInt64) → List (NodeId × UInt64)
  | [] => []
  | e :: es => if e.1 = change.nodeId then (e.1, change.weight) :: es else e :: setWeight change es

namespace ReconfigCommand

def isReconfigPayload (bytes : Bytes) : Bool := reconfigTag.isPrefixOf bytes

variable (R : ReconfigPrimitives)

def decode (bytes : Bytes) : Except ReconfigError ReconfigCommand := do
  require (isReconfigPayload bytes) .missingTag
  okOr (R.decodeBody (bytes.drop reconfigTag.length)) .malformed

def addIds (cmd : ReconfigCommand) : List NodeId := cmd.adds.map ValidatorEntry.nodeId

def changeIds (cmd : ReconfigCommand) : List NodeId := cmd.changes.map WeightChange.nodeId

/-- The view from which the command takes effect is far enough ahead. -/
def checkDelay (cmd : ReconfigCommand) (currentView minVEffDelay : ℕ) :
    Except ReconfigError Unit := do
  let effectiveDelay := max minVEffDelay delayFloor
  let minVEff ← okOr (checkedAddU64 currentView effectiveDelay)
    (.delayOverflow currentView effectiveDelay)
  require (minVEff ≤ cmd.vEff) (.tooSoon cmd.vEff currentView effectiveDelay)

/-- Weights are positive, and no id is named twice. -/
def checkShape (cmd : ReconfigCommand) : Except ReconfigError Unit := do
  refuse (cmd.adds.find? (·.weight = 0)) fun entry => .zeroWeightAdd entry.nodeId
  refuse (cmd.changes.find? (·.weight = 0)) fun change => .zeroWeightChange change.nodeId
  refuse (firstDuplicate [] cmd.addIds) .duplicateAdd
  refuse (firstDuplicate [] cmd.removes) .duplicateRemove
  refuse (firstDuplicate [] cmd.changeIds) .duplicateChange
  refuse (leastCommon cmd.addIds cmd.removes) .addedAndRemoved
  refuse (leastCommon cmd.addIds cmd.changeIds) .addedAndChanged
  refuse (leastCommon cmd.removes cmd.changeIds) .removedAndChanged

/-- Members are removed or changed, newcomers are added. -/
def checkMembership (cmd : ReconfigCommand) (currentSet : ValidatorSet) :
    Except ReconfigError Unit := do
  refuse ((sortedSet cmd.removes).find? fun n => !currentSet.contains n) .removeNonMember
  refuse ((sortedSet cmd.addIds).find? fun n => currentSet.contains n) .addMember
  refuse ((sortedSet cmd.changeIds).find? fun n => !currentSet.contains n) .changeNonMember

/-- The proof is checked against the key it carries, so only its signature can be wrong. -/
def checkPop (chainId : ChainId) (entry : ValidatorEntry) : Except ReconfigError Unit := do
  let pop ← okOr entry.blsPop (.popMissing entry.nodeId)
  require (R.popVerifies pop chainId) (.popInvalid entry.nodeId)

def checkConsent (vEff : ℕ) (chainId : ChainId) (entry : ValidatorEntry) :
    Except ReconfigError Unit :=
  match ReconfigAddConsent.forEntry entry vEff with
  | none => .ok ()
  | some consent => do
    let sig ← okOr entry.consentSig (.consentMissing entry.nodeId)
    require (R.consentVerifies consent sig chainId) (.consentInvalid entry.nodeId)

/-- The set's entries without the removed, with the changed weights, with the added. -/
def nextMembers (cmd : ReconfigCommand) (currentSet : ValidatorSet) : List (NodeId × UInt64) :=
  let kept := currentSet.iterWeighted.filter fun e => e.1 ∉ cmd.removes
  let changed := cmd.changes.foldl (fun next change => setWeight change next) kept
  ValidatorSet.sortEntries (changed ++ cmd.adds.map fun entry => (entry.nodeId, entry.weight))

def validateAgainstWithDelayAndChain (cmd : ReconfigCommand) (currentSet : ValidatorSet)
    (currentView minVEffDelay : ℕ) (chainId : ChainId) :
    Except ReconfigError (List (NodeId × UInt64)) := do
  cmd.checkDelay currentView minVEffDelay
  cmd.checkShape
  cmd.checkMembership currentSet
  cmd.adds.forM (checkPop R chainId)
  cmd.adds.forM (checkConsent R cmd.vEff chainId)
  let next := cmd.nextMembers currentSet
  require (minValidatorFloor ≤ next.length) (.belowFloor next.length minValidatorFloor)
  return next

variable {R}

/-- A command that passes takes effect at least four views after the block's. -/
theorem delay_of_validate {cmd : ReconfigCommand} {currentSet : ValidatorSet}
    {currentView minVEffDelay : ℕ} {chainId : ChainId} {next : List (NodeId × UInt64)}
    (h : cmd.validateAgainstWithDelayAndChain R currentSet currentView minVEffDelay chainId =
      .ok next) : currentView + delayFloor ≤ cmd.vEff := by
  obtain ⟨_, hd, -⟩ := bind_eq_ok.mp h
  obtain ⟨minVEff, hm, hd⟩ := bind_eq_ok.mp hd
  obtain ⟨rfl, -⟩ := checkedAddU64_eq_some.mp (okOr_eq_ok.mp hm)
  have hle : currentView + max minVEffDelay delayFloor ≤ cmd.vEff :=
    of_decide_eq_true (require_eq_ok.mp hd)
  have hmax := Nat.le_max_right minVEffDelay delayFloor
  omega

end ReconfigCommand

end Boule
