import Boule.Lib.Framing
import Boule.Node.Convictions
import Boule.Node.HistoryWrites
import Boule.Reth.Slashing
import Boule.Reth.WeightProofCodec
import Mathlib.Data.Countable.Basic
import Mathlib.Logic.Equiv.List
import Mathlib.Tactic.DeriveCountable

/-! The commands that blocks carry as bytes, and the bytes that are signed for them: which of the
nine kinds a byte string is of, and for which of them a signature is good. -/
namespace Boule
open Framing

/-- `postcard::to_stdvec` and `postcard::from_bytes` at one type. -/
structure Postcard (α : Type) where
  toStdvec : α → Bytes
  fromBytes : Bytes → Option α
  fromBytes_toStdvec : ∀ a, fromBytes (toStdvec a) = some a

theorem Postcard.toStdvec_inj {α : Type} (P : Postcard α) {a b : α}
    (h : P.toStdvec a = P.toStdvec b) : a = b := by
  have heq := congrArg P.fromBytes h
  rw [P.fromBytes_toStdvec, P.fromBytes_toStdvec] at heq
  exact Option.some.inj heq

/-- A command's body, after its tag. -/
def encodeTagged {α : Type} (tag : Bytes) (P : Postcard α) (a : α) : Bytes := tag ++ P.toStdvec a

theorem decodeTagged_encodeTagged {α : Type} (tag : Bytes) (P : Postcard α) (a : α) :
    decodeTagged tag P.fromBytes (encodeTagged tag P a) = some a := by
  have htag : tag.isPrefixOf (encodeTagged tag P a) = true :=
    List.isPrefixOf_iff_prefix.mpr (List.prefix_append ..)
  unfold decodeTagged
  rw [if_pos htag, encodeTagged, List.drop_left, P.fromBytes_toStdvec]

/-! ### System commands -/

def ReconfigCommand.encode (P : Postcard ReconfigCommand) : ReconfigCommand → Bytes :=
  encodeTagged reconfigTag P

namespace DualSignedRotation
variable (P : Postcard DualSignedRotation)

def encodeCommand : DualSignedRotation → Bytes := encodeTagged rotationTag P

def isRotationPayload (bytes : Bytes) : Bool := rotationTag.isPrefixOf bytes

def decodeCommand : Bytes → Option DualSignedRotation := decodeTagged rotationTag P.fromBytes

end DualSignedRotation

namespace DualSignedRotationCancel
variable (P : Postcard DualSignedRotationCancel)

def encodeCommand : DualSignedRotationCancel → Bytes := encodeTagged rotationCancelTag P

def isCancelPayload (bytes : Bytes) : Bool := rotationCancelTag.isPrefixOf bytes

def decodeCommand : Bytes → Option DualSignedRotationCancel :=
  decodeTagged rotationCancelTag P.fromBytes

end DualSignedRotationCancel

namespace OperatorSignedRotation
variable (P : Postcard OperatorSignedRotation)

def encodeCommand : OperatorSignedRotation → Bytes := encodeTagged operatorRotationTag P

def isOperatorRotationPayload (bytes : Bytes) : Bool := operatorRotationTag.isPrefixOf bytes

def decodeCommand : Bytes → Option OperatorSignedRotation :=
  decodeTagged operatorRotationTag P.fromBytes

end OperatorSignedRotation

namespace DualSignedOperatorRotation
variable (P : Postcard DualSignedOperatorRotation)

def encodeCommand : DualSignedOperatorRotation → Bytes := encodeTagged operatorKeyRotationTag P

def isOperatorKeyRotationPayload (bytes : Bytes) : Bool := operatorKeyRotationTag.isPrefixOf bytes

def decodeCommand : Bytes → Option DualSignedOperatorRotation :=
  decodeTagged operatorKeyRotationTag P.fromBytes

end DualSignedOperatorRotation

namespace EquivocationProof
variable (P : Postcard EquivocationProof)

def encodeEvidence : EquivocationProof → Bytes := encodeTagged evidenceTag P

def isEvidencePayload (bytes : Bytes) : Bool := evidenceTag.isPrefixOf bytes

def decodeEvidence : Bytes → Option EquivocationProof := decodeTagged evidenceTag P.fromBytes

end EquivocationProof

namespace ConsensusParamUpdate
variable (P : Postcard ConsensusParamUpdate)

def encode : ConsensusParamUpdate → Bytes := encodeTagged paramUpdateTag P

def isParamUpdatePayload (bytes : Bytes) : Bool := paramUpdateTag.isPrefixOf bytes

def decode : Bytes → Option ConsensusParamUpdate := decodeTagged paramUpdateTag P.fromBytes

end ConsensusParamUpdate

namespace SignedEndpointCommand
variable (P : Postcard SignedEndpointCommand)

def encodeCommand : SignedEndpointCommand → Bytes := encodeTagged endpointTag P

def isEndpointPayload (bytes : Bytes) : Bool := endpointTag.isPrefixOf bytes

def decodeCommand : Bytes → Option SignedEndpointCommand := decodeTagged endpointTag P.fromBytes

end SignedEndpointCommand

inductive SystemCommand where
  | reconfig
  | rotation
  | rotationCancel
  | operatorRotation
  | operatorKeyRotation
  | evidence
  | paramUpdate
  | endpoint
  deriving DecidableEq

namespace SystemCommand

abbrev Value : SystemCommand → Type
  | reconfig => ReconfigCommand
  | rotation => DualSignedRotation
  | rotationCancel => DualSignedRotationCancel
  | operatorRotation => OperatorSignedRotation
  | operatorKeyRotation => DualSignedOperatorRotation
  | evidence => EquivocationProof
  | paramUpdate => ConsensusParamUpdate
  | endpoint => SignedEndpointCommand

def tag : SystemCommand → Bytes
  | reconfig => reconfigTag
  | rotation => rotationTag
  | rotationCancel => rotationCancelTag
  | operatorRotation => operatorRotationTag
  | operatorKeyRotation => operatorKeyRotationTag
  | evidence => evidenceTag
  | paramUpdate => paramUpdateTag
  | endpoint => endpointTag

end SystemCommand

/-! ### Signed payloads -/

/-- The types that implement `SignedMessage`. -/
inductive MessageType where
  | proposal
  | vote
  | newView
  | timeoutVote
  | blockResponse
  | blockRangeResponse
  | reconfigAddConsent
  | validatorKeyRotation
  | operatorKeyRotation
  | validatorRotationCancel
  | endpointCommand
  deriving DecidableEq

namespace MessageType

abbrev Payload : MessageType → Type
  | proposal => Proposal
  | vote => Vote
  | newView => NewView
  | timeoutVote => TimeoutVote
  | blockResponse => BlockResponsePayload
  | blockRangeResponse => BlockRangeResponsePayload
  | reconfigAddConsent => ReconfigAddConsent
  | validatorKeyRotation => ValidatorKeyRotation
  | operatorKeyRotation => OperatorKeyRotation
  | validatorRotationCancel => ValidatorRotationCancel
  | endpointCommand => EndpointCommand

/-- `SignedMessage::DOMAIN` -/
def domain : MessageType → String
  | proposal => "boule.hotstuff.proposal.v1"
  | vote => "boule.hotstuff.vote.v1"
  | newView => "boule.hotstuff.newview.v1"
  | timeoutVote => "boule.hotstuff.timeout.v1"
  | blockResponse => "boule.consensus.block_response.v1"
  | blockRangeResponse => "boule.consensus.block_range_response.v1"
  | reconfigAddConsent => "boule.consensus.reconfig_add_consent.v1"
  | validatorKeyRotation => "boule.consensus.validator_rotation.v1"
  | operatorKeyRotation => "boule.consensus.operator_key_rotation.v1"
  | validatorRotationCancel => "boule.consensus.validator_rotation_cancel.v1"
  | endpointCommand => "boule.consensus.endpoint_command.v1"

theorem domain_inj {t t' : MessageType} (h : t.domain = t'.domain) : t = t' := by
  cases t <;> cases t' <;> first | rfl | exact absurd h (by decide)

theorem domain_short (t : MessageType) : t.domain.toUTF8.data.toList.length < 2 ^ 32 := by
  cases t <;> decide

end MessageType

/-- A payload of any of the types. -/
structure Message where
  type : MessageType
  payload : type.Payload

/-! ### The encodings and Ed25519 -/

/-- The encodings of everything that a command holds or that is signed for one, the check of an
Ed25519 signature over bytes, and what else a commit needs. -/
structure Codecs where
  command : (k : SystemCommand) → Postcard k.Value
  payload : (t : MessageType) → Postcard t.Payload
  ed25519 : NodeId → Bytes → ℕ → Bool
  popVerifies : BlsPop → ChainId → Bool
  historyHash : PersistedValidatorHistory → PersistedKeyHistory → Option PersistedKeyHistory →
    PersistedKeyHistory → Bytes32

def ChainId.toBytes (chainId : ChainId) : ByteArray32 :=
  ⟨(bigEndian 32 chainId).toArray, by rw [List.size_toArray, length_bigEndian]⟩

section
variable (C : Codecs)

/-- `signed::preimage` -/
def Message.preimage (m : Message) (chainId : ByteArray32) : Option Bytes :=
  signedPreimage m.type.domain ((C.payload m.type).toStdvec m.payload) chainId

/-- A signature over a payload is good: the shared part of the functions that verify. -/
def Message.verifies (m : Message) (key : NodeId) (chainId : ByteArray32) (sig : ℕ) : Bool :=
  (m.preimage C chainId).any (C.ed25519 key · sig)

/-- What a commit reads from a block, as its commands are encoded and signed. -/
def Codecs.commitPrimitives : CommitPrimitives where
  decodeBody := (C.command .reconfig).fromBytes
  popVerifies := C.popVerifies
  consentVerifies consent sig chainId :=
    Message.verifies C ⟨.reconfigAddConsent, consent⟩ consent.operatorPubkey chainId.toBytes sig
  decodeRotation := (C.command .rotation).fromBytes
  decodeCancel := (C.command .rotationCancel).fromBytes
  decodeOperatorRotation := (C.command .operatorRotation).fromBytes
  decodeOperatorKeyRotation := (C.command .operatorKeyRotation).fromBytes
  rotationVerifies key rotation chainId sig :=
    Message.verifies C ⟨.validatorKeyRotation, rotation⟩ key chainId.toBytes sig
  cancelVerifies key cancel chainId sig :=
    Message.verifies C ⟨.validatorRotationCancel, cancel⟩ key chainId.toBytes sig
  operatorKeyRotationVerifies key rotation chainId sig :=
    Message.verifies C ⟨.operatorKeyRotation, rotation⟩ key chainId.toBytes sig
  historyHash := C.historyHash
  decodeEndpoint := (C.command .endpoint).fromBytes
  endpointVerifies key cmd chainId sig :=
    Message.verifies C ⟨.endpointCommand, cmd⟩ key chainId.toBytes sig
  decodeParamUpdate := (C.command .paramUpdate).fromBytes

variable {C}

theorem Message.preimage_isSome (m : Message) (chainId : ByteArray32) :
    (m.preimage C chainId).isSome := by
  have h := signedPreimage_of_short m.type.domain_short ((C.payload m.type).toStdvec m.payload)
    chainId
  rw [Message.preimage, h]
  rfl

/-- The signed bytes determine the type of the payload, the payload and the chain. -/
theorem Message.preimage_inj {m m' : Message} {chainId chainId' : ByteArray32} {bytes : Bytes}
    (h : m.preimage C chainId = some bytes) (h' : m'.preimage C chainId' = some bytes) :
    m = m' ∧ chainId = chainId' := by
  obtain ⟨hdomain, hbody, hchain⟩ := signedPreimage_inj h h'
  obtain ⟨t, payload⟩ := m
  obtain ⟨t', payload'⟩ := m'
  obtain rfl := MessageType.domain_inj hdomain
  have hpayload := (C.payload t).toStdvec_inj hbody
  exact ⟨congrArg (Message.mk t) hpayload, hchain⟩

theorem Message.verifies_iff {m : Message} {key : NodeId} {chainId : ByteArray32} {sig : ℕ} :
    m.verifies C key chainId sig = true ↔
      ∃ bytes, m.preimage C chainId = some bytes ∧ C.ed25519 key bytes sig = true := by
  unfold Message.verifies
  cases m.preimage C chainId with
  | none => simp
  | some bytes => simp

theorem verifyDual_eq_ok {check : NodeId → ℕ → Bool} {firstKey newKey : NodeId}
    {firstSig sigNew : ℕ} {firstError : RotationVerifyError} :
    verifyDual check firstKey firstSig firstError newKey sigNew = .ok () ↔
      check firstKey firstSig = true ∧ check newKey sigNew = true := by
  unfold verifyDual
  rw [bind_eq_ok]
  simp only [require_eq_ok, exists_const]

/-- Both signatures of a rotation are over its payload. -/
theorem DualSignedRotation.verify_iff {env : DualSignedRotation} {chainId : ChainId}
    {currentPubkey : NodeId} :
    env.verify C.commitPrimitives.toHistoryPrimitives chainId currentPubkey = .ok () ↔
      Message.verifies C ⟨.validatorKeyRotation, env.payload⟩ currentPubkey chainId.toBytes
          env.sigOld = true ∧
        Message.verifies C ⟨.validatorKeyRotation, env.payload⟩ env.payload.newPubkey
          chainId.toBytes env.sigNew = true :=
  verifyDual_eq_ok

theorem OperatorSignedRotation.verify_iff {env : OperatorSignedRotation} {chainId : ChainId}
    {operatorPubkey : NodeId} :
    env.verify C.commitPrimitives.toHistoryPrimitives chainId operatorPubkey = .ok () ↔
      Message.verifies C ⟨.validatorKeyRotation, env.payload⟩ operatorPubkey chainId.toBytes
          env.sigOperator = true ∧
        Message.verifies C ⟨.validatorKeyRotation, env.payload⟩ env.payload.newPubkey
          chainId.toBytes env.sigNew = true :=
  verifyDual_eq_ok

end

/-! ### The nine kinds -/

inductive CommandKind where
  | system (k : SystemCommand)
  | weightProof
  deriving DecidableEq

namespace CommandKind

abbrev Value : CommandKind → Type
  | system k => k.Value
  | weightProof => WeightProofSet

def tag : CommandKind → Bytes
  | system k => k.tag
  | weightProof => weightProofMagic

/-- The predicates by which the node and the application tell commands apart. -/
def isPayload : CommandKind → Bytes → Bool
  | system .reconfig => ReconfigCommand.isReconfigPayload
  | system .rotation => DualSignedRotation.isRotationPayload
  | system .rotationCancel => DualSignedRotationCancel.isCancelPayload
  | system .operatorRotation => OperatorSignedRotation.isOperatorRotationPayload
  | system .operatorKeyRotation => DualSignedOperatorRotation.isOperatorKeyRotationPayload
  | system .evidence => EquivocationProof.isEvidencePayload
  | system .paramUpdate => ConsensusParamUpdate.isParamUpdatePayload
  | system .endpoint => SignedEndpointCommand.isEndpointPayload
  | weightProof => WeightProofSet.isWeightProofCommand

variable (C : Codecs)

def encode : (k : CommandKind) → k.Value → Bytes
  | system .reconfig => ReconfigCommand.encode (C.command .reconfig)
  | system .rotation => DualSignedRotation.encodeCommand (C.command .rotation)
  | system .rotationCancel => DualSignedRotationCancel.encodeCommand (C.command .rotationCancel)
  | system .operatorRotation => OperatorSignedRotation.encodeCommand (C.command .operatorRotation)
  | system .operatorKeyRotation =>
    DualSignedOperatorRotation.encodeCommand (C.command .operatorKeyRotation)
  | system .evidence => EquivocationProof.encodeEvidence (C.command .evidence)
  | system .paramUpdate => ConsensusParamUpdate.encode (C.command .paramUpdate)
  | system .endpoint => SignedEndpointCommand.encodeCommand (C.command .endpoint)
  | weightProof => WeightProofSet.encode

/-- The decoders, where all memory that a set of weight proofs asks for is granted. -/
def decode : (k : CommandKind) → Bytes → Option k.Value
  | system .reconfig => fun bytes =>
    (ReconfigCommand.decode C.commitPrimitives.toReconfigPrimitives bytes).toOption
  | system .rotation => DualSignedRotation.decodeCommand (C.command .rotation)
  | system .rotationCancel => DualSignedRotationCancel.decodeCommand (C.command .rotationCancel)
  | system .operatorRotation => OperatorSignedRotation.decodeCommand (C.command .operatorRotation)
  | system .operatorKeyRotation =>
    DualSignedOperatorRotation.decodeCommand (C.command .operatorKeyRotation)
  | system .evidence => EquivocationProof.decodeEvidence (C.command .evidence)
  | system .paramUpdate => ConsensusParamUpdate.decode (C.command .paramUpdate)
  | system .endpoint => SignedEndpointCommand.decodeCommand (C.command .endpoint)
  | weightProof => fun bytes => (WeightProofSet.decode Reading.isizeMax bytes).toOption

/-- A set of weight proofs has lengths in front of its parts, of four bytes each. -/
def Fits : (k : CommandKind) → k.Value → Prop
  | system _ => fun _ => True
  | weightProof => WeightProofSet.InRange

theorem prefixFree_tag : PrefixFree tag := by
  intro k k' h
  cases k with
  | system k =>
    cases k' with
    | system k' =>
      congr 1
      revert h
      cases k <;> cases k' <;> decide
    | weightProof =>
      revert h
      cases k <;> decide
  | weightProof =>
    cases k' with
    | system k' =>
      revert h
      cases k' <;> decide
    | weightProof => rfl

theorem isPayload_iff (k : CommandKind) (bytes : Bytes) :
    k.isPayload bytes = true ↔ k.tag <+: bytes := by
  cases k with
  | system k => cases k <;> exact List.isPrefixOf_iff_prefix
  | weightProof =>
    show (bytes.length ≥ 4 && bytes.take 4 = weightProofMagic) = true ↔ weightProofMagic <+: bytes
    rw [List.prefix_iff_eq_take, Bool.and_eq_true, decide_eq_true_iff, decide_eq_true_iff]
    constructor
    · intro h
      exact h.2.symm
    · intro h
      have hlen := congrArg List.length h
      rw [List.length_take] at hlen
      have hfour : weightProofMagic.length = 4 := rfl
      exact ⟨by omega, h.symm⟩

variable {C}

theorem encode_eq (k : SystemCommand) (v : k.Value) :
    encode C (.system k) v = encodeTagged k.tag (C.command k) v := by
  cases k <;> rfl

theorem decode_eq (k : SystemCommand) (bytes : Bytes) :
    decode C (.system k) bytes = decodeTagged k.tag (C.command k).fromBytes bytes := by
  cases k with
  | reconfig =>
    show (ReconfigCommand.decode _ bytes).toOption =
      decodeTagged reconfigTag (C.command .reconfig).fromBytes bytes
    unfold ReconfigCommand.decode decodeTagged ReconfigCommand.isReconfigPayload
    cases htag : reconfigTag.isPrefixOf bytes with
    | false => rfl
    | true =>
      show (okOr ((C.command .reconfig).fromBytes _) _).toOption = _
      cases (C.command .reconfig).fromBytes (bytes.drop reconfigTag.length) <;> rfl
  | _ => rfl

theorem tag_prefix_encode (k : CommandKind) (v : k.Value) : k.tag <+: encode C k v := by
  cases k with
  | system k =>
    rw [encode_eq]
    exact List.prefix_append ..
  | weightProof => exact List.prefix_append ..

theorem decode_encode (k : CommandKind) (v : k.Value) (h : k.Fits v) :
    decode C k (encode C k v) = some v := by
  cases k with
  | system k => rw [decode_eq, encode_eq, decodeTagged_encodeTagged]
  | weightProof =>
    have hdecode := (WeightProofSet.decode_iff _ (WeightProofSet.encode v) v).mpr
      ⟨⟨h, WeightProofSet.InRange.fits h⟩, rfl⟩
    exact toOption_eq_some.mpr hdecode

/-- A byte string is a command of one kind at most. -/
theorem eq_of_isPayload {k k' : CommandKind} {bytes : Bytes} (h : k.isPayload bytes = true)
    (h' : k'.isPayload bytes = true) : k = k' :=
  prefixFree_tag.eq_of_prefix ((isPayload_iff k bytes).mp h) ((isPayload_iff k' bytes).mp h')

theorem isPayload_encode (k k' : CommandKind) (v : k.Value) :
    k'.isPayload (encode C k v) = true ↔ k' = k := by
  have hown : k.isPayload (encode C k v) = true :=
    (isPayload_iff k _).mpr (tag_prefix_encode k v)
  constructor
  · intro h
    exact eq_of_isPayload h hown
  · intro h
    rw [h]
    exact hown

/-- Both kinds of rotation of a validator's key have signatures over one type of payload. -/
def rotatesValidatorKey : CommandKind → Bool
  | system .rotation => true
  | system .operatorRotation => true
  | _ => false

end CommandKind

/-! ### What is signed for a command -/

structure Command where
  kind : CommandKind
  value : kind.Value

namespace Command

/-- The payloads whose signatures are checked for a command. -/
def signedMessages : Command → List Message
  | ⟨.system .reconfig, cmd⟩ => cmd.adds.filterMap fun entry =>
    (ReconfigAddConsent.forEntry entry cmd.vEff).map (Message.mk .reconfigAddConsent)
  | ⟨.system .rotation, env⟩ => [⟨.validatorKeyRotation, env.payload⟩]
  | ⟨.system .rotationCancel, env⟩ => [⟨.validatorRotationCancel, env.payload⟩]
  | ⟨.system .operatorRotation, env⟩ => [⟨.validatorKeyRotation, env.payload⟩]
  | ⟨.system .operatorKeyRotation, env⟩ => [⟨.operatorKeyRotation, env.payload⟩]
  | ⟨.system .evidence, .doubleVote a b⟩ => [⟨.vote, a.payload⟩, ⟨.vote, b.payload⟩]
  | ⟨.system .evidence, .doubleProposal a b⟩ => [⟨.proposal, a.payload⟩, ⟨.proposal, b.payload⟩]
  | ⟨.system .paramUpdate, _⟩ => []
  | ⟨.system .endpoint, signed⟩ => [⟨.endpointCommand, signed.payload⟩]
  | ⟨.weightProof, _⟩ => []

end Command

/-- The kinds of command for which payloads of a type are signed. -/
def MessageType.kinds : MessageType → List CommandKind
  | proposal | vote => [.system .evidence]
  | newView | timeoutVote | blockResponse | blockRangeResponse => []
  | reconfigAddConsent => [.system .reconfig]
  | validatorKeyRotation => [.system .rotation, .system .operatorRotation]
  | operatorKeyRotation => [.system .operatorKeyRotation]
  | validatorRotationCancel => [.system .rotationCancel]
  | endpointCommand => [.system .endpoint]

namespace Command
variable {C : Codecs}

theorem kind_mem_of_signed {c : Command} {m : Message} (h : m ∈ c.signedMessages) :
    c.kind ∈ m.type.kinds := by
  obtain ⟨k, value⟩ := c
  cases k with
  | weightProof => cases h
  | system k =>
    cases k with
    | reconfig =>
      obtain ⟨entry, -, hentry⟩ := List.mem_filterMap.mp h
      obtain ⟨consent, -, rfl⟩ := Option.map_eq_some_iff.mp hentry
      exact List.mem_singleton.mpr rfl
    | evidence =>
      cases value with
      | doubleVote a b =>
        rcases List.mem_pair.mp h with rfl | rfl <;> exact List.mem_singleton.mpr rfl
      | doubleProposal a b =>
        rcases List.mem_pair.mp h with rfl | rfl <;> exact List.mem_singleton.mpr rfl
    | paramUpdate => cases h
    | rotation =>
      obtain rfl := List.mem_singleton.mp h
      exact List.mem_cons_self ..
    | operatorRotation =>
      obtain rfl := List.mem_singleton.mp h
      exact List.mem_cons_of_mem _ (List.mem_cons_self ..)
    | _ =>
      obtain rfl := List.mem_singleton.mp h
      exact List.mem_singleton.mpr rfl

/-- Commands for which one payload is signed are of one kind, or both rotate a validator's key. -/
theorem kinds_of_signed {c c' : Command} {m : Message} (h : m ∈ c.signedMessages)
    (h' : m ∈ c'.signedMessages) :
    c.kind = c'.kind ∨ c.kind.rotatesValidatorKey ∧ c'.kind.rotatesValidatorKey := by
  have hc := kind_mem_of_signed h
  have hc' := kind_mem_of_signed h'
  cases htype : m.type with
  | validatorKeyRotation =>
    rw [htype] at hc hc'
    rcases List.mem_pair.mp hc with hk | hk <;> rcases List.mem_pair.mp hc' with hk' | hk' <;>
      exact .inr (by rw [hk, hk']; decide)
  | newView => rw [htype] at hc; cases hc
  | timeoutVote => rw [htype] at hc; cases hc
  | blockResponse => rw [htype] at hc; cases hc
  | blockRangeResponse => rw [htype] at hc; cases hc
  | _ =>
    rw [htype] at hc hc'
    exact .inl ((List.mem_singleton.mp hc).trans (List.mem_singleton.mp hc').symm)

end Command

/-- Whoever holds a key has signed nothing but payloads of commands of one kind. -/
def SignsOnly (C : Codecs) (key : NodeId) (kind : CommandKind) : Prop :=
  ∀ bytes sig, C.ed25519 key bytes sig = true →
    ∃ (c : Command) (m : Message) (chainId : ByteArray32),
      c.kind = kind ∧ m ∈ c.signedMessages ∧ m.preimage C chainId = some bytes

/-- A byte string is of one kind at most, and an encoded command of its own; the bytes that are
signed determine the payload and the chain, so that a signature for a command is good for commands
of its kind only, the two rotations of a validator's key apart. -/
theorem command_space (C : Codecs) :
    (∀ (bytes : Bytes) (k k' : CommandKind), k.isPayload bytes → k'.isPayload bytes → k = k') ∧
    (∀ (k : CommandKind) (v : k.Value),
      (k.Fits v → k.decode C (k.encode C v) = some v) ∧
        ∀ k', k'.isPayload (k.encode C v) = true ↔ k' = k) ∧
    (∀ (m m' : Message) (chainId chainId' : ByteArray32), (m.preimage C chainId).isSome ∧
      (m.preimage C chainId = m'.preimage C chainId' → m = m' ∧ chainId = chainId')) ∧
    (∀ (c c' : Command) (chainId chainId' : ByteArray32), ∀ m ∈ c.signedMessages,
      ∀ m' ∈ c'.signedMessages, m.preimage C chainId = m'.preimage C chainId' →
        m = m' ∧ chainId = chainId' ∧
          (c.kind = c'.kind ∨ c.kind.rotatesValidatorKey ∧ c'.kind.rotatesValidatorKey)) ∧
    ∀ (key : NodeId) (kind : CommandKind), SignsOnly C key kind →
      ∀ (c : Command) (chainId : ByteArray32) (sig : ℕ), ∀ m ∈ c.signedMessages,
        m.verifies C key chainId sig →
          c.kind = kind ∨ c.kind.rotatesValidatorKey ∧ kind.rotatesValidatorKey := by
  have hinj : ∀ (m m' : Message) (chainId chainId' : ByteArray32),
      m.preimage C chainId = m'.preimage C chainId' → m = m' ∧ chainId = chainId' := by
    intro m m' chainId chainId' heq
    obtain ⟨bytes, hbytes⟩ := Option.isSome_iff_exists.mp (m.preimage_isSome (C := C) chainId)
    exact Message.preimage_inj hbytes (heq ▸ hbytes)
  refine ⟨?_, ?_, ?_, ?_, ?_⟩
  · intro bytes k k' h h'
    exact CommandKind.eq_of_isPayload h h'
  · intro k v
    exact ⟨CommandKind.decode_encode k v, fun k' => CommandKind.isPayload_encode k k' v⟩
  · intro m m' chainId chainId'
    exact ⟨m.preimage_isSome chainId, hinj m m' chainId chainId'⟩
  · intro c c' chainId chainId' m hm m' hm' heq
    obtain ⟨rfl, hchain⟩ := hinj m m' chainId chainId' heq
    exact ⟨rfl, hchain, Command.kinds_of_signed hm hm'⟩
  · intro key kind hkey c chainId sig m hm hsig
    obtain ⟨bytes, hbytes, hgood⟩ := Message.verifies_iff.mp hsig
    obtain ⟨c', m', chainId', rfl, hm', hbytes'⟩ := hkey bytes sig hgood
    obtain ⟨rfl, -⟩ := Message.preimage_inj hbytes hbytes'
    exact Command.kinds_of_signed hm hm'

namespace Sample

instance countableUInt8 : Countable UInt8 :=
  ⟨⟨UInt8.toNat, fun _ _ h => UInt8.toNat_inj.mp h⟩⟩

instance countableUInt64 : Countable UInt64 :=
  ⟨⟨UInt64.toNat, fun _ _ h => UInt64.toNat_inj.mp h⟩⟩

instance countableBitVec8 : Countable (BitVec 8) :=
  ⟨⟨BitVec.toNat, fun _ _ h => BitVec.toNat_inj.mp h⟩⟩

deriving instance Countable for SignerBitmap, QuorumCertificate, BlockHeader, Block, Proposal, Vote,
  NewView, TimeoutVote, BlockResponsePayload, BlockRangeResponsePayload
deriving instance Countable for EndpointEntry, BlsPop, ValidatorEntry, WeightChange,
  ReconfigCommand, ReconfigAddConsent
deriving instance Countable for ValidatorKeyRotation, DualSignedRotation, OperatorSignedRotation,
  OperatorKeyRotation, DualSignedOperatorRotation, ValidatorRotationCancel,
  DualSignedRotationCancel
deriving instance Countable for Signed
deriving instance Countable for EquivocationProof, ConsensusParamUpdate, EndpointOp,
  EndpointCommand, SignedEndpointCommand

/-- Values in unary, by their number. -/
noncomputable def unaryPostcard (α : Type) [Countable α] : Postcard α :=
  letI := Encodable.ofCountable α
  { toStdvec := fun a => List.replicate (Encodable.encode a) 0
    fromBytes := fun bytes => Encodable.decode bytes.length
    fromBytes_toStdvec := fun a => by rw [List.length_replicate, Encodable.encodek] }

/-- A signature that numbers its key and its bytes. -/
def signature (key : NodeId) (bytes : Bytes) : ℕ := Encodable.encode (key, bytes.map UInt8.toNat)

noncomputable def numbering : Codecs where
  command
    | .reconfig => unaryPostcard ReconfigCommand
    | .rotation => unaryPostcard DualSignedRotation
    | .rotationCancel => unaryPostcard DualSignedRotationCancel
    | .operatorRotation => unaryPostcard OperatorSignedRotation
    | .operatorKeyRotation => unaryPostcard DualSignedOperatorRotation
    | .evidence => unaryPostcard EquivocationProof
    | .paramUpdate => unaryPostcard ConsensusParamUpdate
    | .endpoint => unaryPostcard SignedEndpointCommand
  payload
    | .proposal => unaryPostcard Proposal
    | .vote => unaryPostcard Vote
    | .newView => unaryPostcard NewView
    | .timeoutVote => unaryPostcard TimeoutVote
    | .blockResponse => unaryPostcard BlockResponsePayload
    | .blockRangeResponse => unaryPostcard BlockRangeResponsePayload
    | .reconfigAddConsent => unaryPostcard ReconfigAddConsent
    | .validatorKeyRotation => unaryPostcard ValidatorKeyRotation
    | .operatorKeyRotation => unaryPostcard OperatorKeyRotation
    | .validatorRotationCancel => unaryPostcard ValidatorRotationCancel
    | .endpointCommand => unaryPostcard EndpointCommand
  ed25519 key bytes sig := sig = signature key bytes
  popVerifies _ _ := true
  historyHash _ _ _ _ := 0

/-- Validator 4 takes the key 40. -/
def newKey₄ : ValidatorKeyRotation := ⟨4, 40, 12, some 44, some ⟨44, 0⟩⟩

noncomputable def signedBy (key : NodeId) (m : Message) (chainId : ChainId) : ℕ :=
  ((m.preimage numbering chainId.toBytes).map (signature key)).getD 0

theorem verifies_signedBy (key : NodeId) (m : Message) (chainId : ChainId) :
    m.verifies numbering key chainId.toBytes (signedBy key m chainId) = true := by
  obtain ⟨bytes, hbytes⟩ :=
    Option.isSome_iff_exists.mp (m.preimage_isSome (C := numbering) chainId.toBytes)
  refine Message.verifies_iff.mpr ⟨bytes, hbytes, ?_⟩
  show decide (signedBy key m chainId = signature key bytes) = true
  unfold signedBy
  rw [hbytes]
  exact decide_eq_true rfl

/-- Signed by the keys 4 and 40. -/
noncomputable def rotated₄ : DualSignedRotation :=
  ⟨newKey₄, signedBy 4 ⟨.validatorKeyRotation, newKey₄⟩ 0,
    signedBy 40 ⟨.validatorKeyRotation, newKey₄⟩ 0⟩

/-- Signed by the operator key 14, with the signature of the key 40 from above. -/
noncomputable def operatorRotated₄ : OperatorSignedRotation :=
  ⟨newKey₄, signedBy 14 ⟨.validatorKeyRotation, newKey₄⟩ 0, rotated₄.sigNew⟩

/-- A proof with a receipt of `2 ^ 32` bytes. -/
def largeReceipt : WeightProofSet := ⟨[⟨4, 1, 0, 0, List.replicate (2 ^ 32) 0, []⟩]⟩

/-- The new key's signature of a rotation is good in an operator's rotation, and a set of weight
proofs with a length of more than four bytes does not come back from its encoding. -/
theorem signature_of_rotation_shared :
    rotated₄.verify numbering.commitPrimitives.toHistoryPrimitives 0 4 = .ok () ∧
      operatorRotated₄.verify numbering.commitPrimitives.toHistoryPrimitives 0 14 = .ok () ∧
      operatorRotated₄.sigNew = rotated₄.sigNew ∧
      CommandKind.decode numbering .weightProof
        (CommandKind.encode numbering .weightProof largeReceipt) ≠ some largeReceipt := by
  have hold := verifies_signedBy 4 ⟨.validatorKeyRotation, newKey₄⟩ 0
  have hoperator := verifies_signedBy 14 ⟨.validatorKeyRotation, newKey₄⟩ 0
  have hnew := verifies_signedBy 40 ⟨.validatorKeyRotation, newKey₄⟩ 0
  refine ⟨?_, ?_, rfl, ?_⟩
  · exact DualSignedRotation.verify_iff.mpr ⟨hold, hnew⟩
  · exact OperatorSignedRotation.verify_iff.mpr ⟨hoperator, hnew⟩
  · intro h
    have hdecode : WeightProofSet.decode Reading.isizeMax largeReceipt.encode = .ok largeReceipt :=
      toOption_eq_some.mp h
    have hrange := ((WeightProofSet.decode_iff _ _ _).mp hdecode).1.1
    have hreceipt := (hrange.2 _ (List.mem_singleton.mpr rfl)).receipt
    rw [List.length_replicate] at hreceipt
    exact absurd hreceipt (Nat.lt_irrefl _)

/-- Validator 4 removes the endpoint 40. -/
def removing₄ : SignedEndpointCommand := ⟨⟨4, 1, .remove [40]⟩, 7⟩

/-- The key 4 has signed one endpoint command, and no other key anything. -/
noncomputable def endpointSigner : Codecs :=
  { numbering with
    ed25519 := fun key bytes sig => key = 4 && sig = 7 &&
      Message.preimage numbering ⟨.endpointCommand, removing₄.payload⟩ (ChainId.toBytes 0) = bytes }

theorem signsOnly_endpointSigner : SignsOnly endpointSigner 4 (.system .endpoint) := by
  intro bytes sig h
  have hbytes := (Bool.and_eq_true _ _).mp h
  exact ⟨⟨.system .endpoint, removing₄⟩, ⟨.endpointCommand, removing₄.payload⟩, ChainId.toBytes 0,
    rfl, List.mem_singleton.mpr rfl, of_decide_eq_true hbytes.2⟩

/-- The signature of the endpoint command is not good for a cancel, and the empty set of weight
proofs comes back from its encoding. -/
theorem endpoint_signature_not_of_cancel :
    Message.verifies endpointSigner ⟨.validatorRotationCancel, ⟨4, 12⟩⟩ 4 (ChainId.toBytes 0) 7 =
        false ∧
      CommandKind.decode endpointSigner .weightProof
        (CommandKind.encode endpointSigner .weightProof ⟨[]⟩) = some ⟨[]⟩ := by
  obtain ⟨-, hround, -, -, hsigned⟩ := command_space endpointSigner
  constructor
  · rw [← Bool.not_eq_true]
    intro hgood
    have hkinds := hsigned 4 _ signsOnly_endpointSigner ⟨.system .rotationCancel, ⟨⟨4, 12⟩, 7, 7⟩⟩
      (ChainId.toBytes 0) 7 _ (List.mem_singleton.mpr rfl) hgood
    revert hkinds
    decide
  · exact (hround .weightProof ⟨[]⟩).1 ⟨by decide, fun _ h => absurd h (List.not_mem_nil)⟩

end Sample

end Boule
