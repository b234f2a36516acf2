import Boule.Reconfig

/-! Rotations of envelope, BLS and operator keys: the commands, their signatures, and what an
accepted one does to a key history. -/
namespace Boule

/-- `b"VKROT\0"` -/
def rotationTag : Bytes := [0x56, 0x4b, 0x52, 0x4f, 0x54, 0x00]

/-- `b"VKCAN\0"` -/
def rotationCancelTag : Bytes := [0x56, 0x4b, 0x43, 0x41, 0x4e, 0x00]

/-- `b"VKOPR\0"` -/
def operatorRotationTag : Bytes := [0x56, 0x4b, 0x4f, 0x50, 0x52, 0x00]

/-- `b"OKROT\0"` -/
def operatorKeyRotationTag : Bytes := [0x4f, 0x4b, 0x52, 0x4f, 0x54, 0x00]

def vEffMinDelay : ℕ := 2

def saturatingAddU64 (a b : ℕ) : ℕ := min (a + b) (2 ^ 64 - 1)

structure ValidatorKeyRotation where
  validator : NodeId
  newPubkey : NodeId
  vEff : ℕ
  newBlsPubkey : Option BlsPublicKey
  newBlsPop : Option BlsPop
  deriving DecidableEq

structure DualSignedRotation where
  payload : ValidatorKeyRotation
  sigOld : ℕ
  sigNew : ℕ
  deriving DecidableEq

structure OperatorSignedRotation where
  payload : ValidatorKeyRotation
  sigOperator : ℕ
  sigNew : ℕ
  deriving DecidableEq

structure OperatorKeyRotation where
  validator : NodeId
  newOperatorPubkey : NodeId
  vEff : ℕ
  deriving DecidableEq

structure DualSignedOperatorRotation where
  payload : OperatorKeyRotation
  sigOld : ℕ
  sigNew : ℕ
  deriving DecidableEq

structure ValidatorRotationCancel where
  validator : NodeId
  cancellingVEff : ℕ
  deriving DecidableEq

structure DualSignedRotationCancel where
  payload : ValidatorRotationCancel
  sigOld : ℕ
  sigNew : ℕ
  deriving DecidableEq

/-- The decoders and signature checks of rotations, and the hash over four persisted
histories. A signature covers the chain id, the payload's domain tag and the payload. -/
structure HistoryPrimitives extends ReconfigPrimitives where
  decodeRotation : Bytes → Option DualSignedRotation
  decodeCancel : Bytes → Option DualSignedRotationCancel
  decodeOperatorRotation : Bytes → Option OperatorSignedRotation
  decodeOperatorKeyRotation : Bytes → Option DualSignedOperatorRotation
  rotationVerifies : NodeId → ValidatorKeyRotation → ChainId → ℕ → Bool
  cancelVerifies : NodeId → ValidatorRotationCancel → ChainId → ℕ → Bool
  operatorKeyRotationVerifies : NodeId → OperatorKeyRotation → ChainId → ℕ → Bool
  historyHash : PersistedValidatorHistory → PersistedKeyHistory → Option PersistedKeyHistory →
    PersistedKeyHistory → Bytes32

inductive RotationStructuralError where
  | effectiveViewTooSoon (currentView vEff : ℕ)
  | newKeyEqualsValidator
  | blsFieldsInconsistentWithScheme (blsPubkeyPresent blsPopPresent : Bool)
  | blsPopVerificationFailed
  deriving DecidableEq

inductive RotationVerifyError where
  | invalidOldSignature
  | invalidNewSignature
  | invalidOperatorSignature
  deriving DecidableEq

/-- `HistoryError`; `panicked` stands for a failed `expect`. -/
inductive HistoryError where
  | structural (e : RotationStructuralError)
  | unknownValidator (validator : NodeId)
  | vEffNotStrictlyIncreasing (lastVEff vEff : ℕ)
  | newKeyCollidesWithOtherValidator (newPubkey owner : NodeId)
  | noPendingRotationToCancel (validator : NodeId) (cancellingVEff : ℕ)
  | panicked
  deriving DecidableEq

/-- The failures of a BLS or operator history; only the former has a cancel. -/
inductive KeyEntriesError where
  | unknownValidator (stableId : NodeId)
  | vEffNotStrictlyIncreasing (lastVEff vEff : ℕ)
  | noPendingRotationToCancel (stableId : NodeId) (vEff : ℕ)
  | panicked
  deriving DecidableEq

/-- A command's body, after its tag. -/
def decodeTagged {α : Type} (tag : Bytes) (decodeBody : Bytes → Option α) (bytes : Bytes) :
    Option α :=
  if tag.isPrefixOf bytes then decodeBody (bytes.drop tag.length) else none

theorem tag_of_decodeTagged {α : Type} {tag bytes : Bytes} {decodeBody : Bytes → Option α} {a : α}
    (h : decodeTagged tag decodeBody bytes = some a) : tag.isPrefixOf bytes = true := by
  unfold decodeTagged at h
  split_ifs at h with htag
  exact htag

theorem decode_of_decodeTagged {α : Type} {tag bytes : Bytes} {decodeBody : Bytes → Option α}
    {a : α} (h : decodeTagged tag decodeBody bytes = some a) :
    ∃ body, decodeBody body = some a := by
  unfold decodeTagged at h
  split_ifs at h
  exact ⟨_, h⟩

theorem decodeTagged_of_other {α : Type} {tag bytes : Bytes} (decodeBody : Bytes → Option α)
    (h : tag.isPrefixOf bytes = false) : decodeTagged tag decodeBody bytes = none := by
  unfold decodeTagged
  rw [h]
  rfl

/-- Two signatures over one payload, the first checked first. -/
def verifyDual (check : NodeId → ℕ → Bool) (firstKey : NodeId) (firstSig : ℕ)
    (firstError : RotationVerifyError) (newKey : NodeId) (sigNew : ℕ) :
    Except RotationVerifyError Unit := do
  require (check firstKey firstSig) firstError
  require (check newKey sigNew) .invalidNewSignature

section
variable (R : HistoryPrimitives) (chainId : ChainId)

def DualSignedRotation.verify (env : DualSignedRotation) (currentPubkey : NodeId) :
    Except RotationVerifyError Unit :=
  verifyDual (R.rotationVerifies · env.payload chainId ·) currentPubkey env.sigOld
    .invalidOldSignature env.payload.newPubkey env.sigNew

def OperatorSignedRotation.verify (env : OperatorSignedRotation) (operatorPubkey : NodeId) :
    Except RotationVerifyError Unit :=
  verifyDual (R.rotationVerifies · env.payload chainId ·) operatorPubkey env.sigOperator
    .invalidOperatorSignature env.payload.newPubkey env.sigNew

def DualSignedOperatorRotation.verify (env : DualSignedOperatorRotation)
    (currentOperatorPubkey : NodeId) : Except RotationVerifyError Unit :=
  verifyDual (R.operatorKeyRotationVerifies · env.payload chainId ·) currentOperatorPubkey
    env.sigOld .invalidOldSignature env.payload.newOperatorPubkey env.sigNew

def DualSignedRotationCancel.verify (env : DualSignedRotationCancel)
    (currentPubkey pendingNewPubkey : NodeId) : Except RotationVerifyError Unit :=
  verifyDual (R.cancelVerifies · env.payload chainId ·) currentPubkey env.sigOld
    .invalidOldSignature pendingNewPubkey env.sigNew

namespace ValidatorKeyRotation

def validateStructural (rotation : ValidatorKeyRotation) (currentView : ℕ) :
    Except RotationStructuralError Unit := do
  require (saturatingAddU64 currentView vEffMinDelay ≤ rotation.vEff)
    (.effectiveViewTooSoon currentView rotation.vEff)
  require (rotation.newPubkey ≠ rotation.validator) .newKeyEqualsValidator

def validateSchemeConsistency (rotation : ValidatorKeyRotation) :
    Except RotationStructuralError Unit :=
  match rotation.newBlsPubkey, rotation.newBlsPop with
  | some pk, some pop =>
    require (pop.pubkey = pk && R.popVerifies pop chainId) .blsPopVerificationFailed
  | pk, pop => .error (.blsFieldsInconsistentWithScheme pk.isSome pop.isSome)

end ValidatorKeyRotation

end

/-! ### Key histories -/

/-- A later entry of a validator that has some. -/
def appendEntry (t : Table NodeId (List KeyEntry)) (stableId : NodeId) (vEff key : ℕ) :
    Except KeyEntriesError (Table NodeId (List KeyEntry)) := do
  let entries ← okOr (t.get? stableId) (.unknownValidator stableId)
  let last ← okOr entries.getLast? .panicked
  require (last.vEff < vEff) (.vEffNotStrictlyIncreasing last.vEff vEff)
  return t.insert stableId (entries ++ [⟨vEff, key⟩])

namespace BlsKeyHistory

def applyRotation (h : BlsKeyHistory) (stableId : NodeId) (vEff : ℕ)
    (newBlsPubkey : BlsPublicKey) : Except KeyEntriesError BlsKeyHistory :=
  (appendEntry h.byStableId stableId vEff newBlsPubkey).map BlsKeyHistory.mk

def cancelPendingRotation (h : BlsKeyHistory) (stableId : NodeId)
    (cancellingVEff commitView : ℕ) : Except KeyEntriesError BlsKeyHistory := do
  let entries ← okOr (h.byStableId.get? stableId) (.unknownValidator stableId)
  let last ← okOr entries.getLast? .panicked
  require (last.vEff = cancellingVEff && commitView < cancellingVEff)
    (.noPendingRotationToCancel stableId cancellingVEff)
  return ⟨h.byStableId.insert stableId entries.dropLast⟩

end BlsKeyHistory

namespace OperatorKeyHistory

def keyAt (h : OperatorKeyHistory) (validator : ValidatorId) (view : ℕ) : Option NodeId :=
  (h.byStableId.get? validator).bind (Boule.keyAt · view)

def applyRotation (h : OperatorKeyHistory) (stableId : ValidatorId) (vEff : ℕ)
    (newOperatorPubkey : NodeId) : Except KeyEntriesError OperatorKeyHistory :=
  (appendEntry h.byStableId stableId vEff newOperatorPubkey).map OperatorKeyHistory.mk

end OperatorKeyHistory

namespace ValidatorKeyHistory

/-- Fails when the key belongs to a validator already. -/
def addValidator (h : ValidatorKeyHistory) (pubkey : NodeId) (vEff : ℕ) :
    Except HistoryError ValidatorKeyHistory := do
  refuse (h.pubkeyToStableId.get? pubkey) (.newKeyCollidesWithOtherValidator pubkey)
  return ⟨h.byStableId.insert pubkey [⟨vEff, pubkey⟩], h.pubkeyToStableId.insert pubkey pubkey⟩

def currentKey (h : ValidatorKeyHistory) (pubkeyAnywhere : NodeId) : Option NodeId := do
  let stableId ← h.pubkeyToStableId.get? pubkeyAnywhere
  let entries ← h.byStableId.get? stableId
  entries.getLast?.map KeyEntry.key

def applyRotation (h : ValidatorKeyHistory) (rotation : ValidatorKeyRotation) (commitView : ℕ) :
    Except HistoryError ValidatorKeyHistory := do
  (rotation.validateStructural commitView).mapError .structural
  let stableId ← okOr (h.pubkeyToStableId.get? rotation.validator)
    (.unknownValidator rotation.validator)
  refuse ((h.pubkeyToStableId.get? rotation.newPubkey).filter (· ≠ stableId))
    (.newKeyCollidesWithOtherValidator rotation.newPubkey)
  let entries ← okOr (h.byStableId.get? stableId) .panicked
  let last ← okOr entries.getLast? .panicked
  require (last.vEff < rotation.vEff) (.vEffNotStrictlyIncreasing last.vEff rotation.vEff)
  return ⟨h.byStableId.insert stableId (entries ++ [⟨rotation.vEff, rotation.newPubkey⟩]),
    h.pubkeyToStableId.insert rotation.newPubkey stableId⟩

def pendingRotationNewKey (h : ValidatorKeyHistory) (validator : NodeId)
    (cancellingVEff commitView : ℕ) : Option NodeId := do
  let stableId ← h.pubkeyToStableId.get? validator
  let entries ← h.byStableId.get? stableId
  let last ← entries.getLast?
  if last.vEff = cancellingVEff ∧ commitView < cancellingVEff then some last.key else none

/-- The last entry is dropped, and its key from the index, also where an earlier entry has the
same key. -/
def cancelPendingRotation (h : ValidatorKeyHistory) (validator : NodeId)
    (cancellingVEff commitView : ℕ) : Except HistoryError ValidatorKeyHistory := do
  let stableId ← okOr (h.pubkeyToStableId.get? validator)
    (.noPendingRotationToCancel validator cancellingVEff)
  let entries ← okOr (h.byStableId.get? stableId) .panicked
  let last ← okOr entries.getLast? .panicked
  require (last.vEff = cancellingVEff && commitView < cancellingVEff)
    (.noPendingRotationToCancel validator cancellingVEff)
  return ⟨h.byStableId.insert stableId entries.dropLast, h.pubkeyToStableId.erase last.key⟩

end ValidatorKeyHistory

end Boule
