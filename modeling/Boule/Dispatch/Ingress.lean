import Boule.Dispatch.Verify
import Boule.HotStuff.Headers

/-! Ingress: one function per wire message, and what is known of the certificates it admits. -/
namespace Boule

/-- What the checks of one message depend on. -/
structure IngressContext where
  history : ValidatorSetHistory
  keyHistory : ValidatorKeyHistory
  qcVerification : QcVerification
  chainId : ChainId

section
variable (P : Primitives) (V : Verifier) (ctx : IngressContext)

def ingressProposal (signed : Signed Proposal) : Except IngressError (List Dispatch) := do
  let view := signed.payload.block.header.view
  let justifyView := signed.payload.justify.view
  let signerValidatorId ← verifySignerAt signed.signer view ctx.history ctx.keyHistory
  verifySig V .proposal signed ctx.chainId
  verifyQcIfRequested V signed.payload.justify ctx.history ctx.qcVerification ctx.chainId
  verifyProposalHistoryCommitmentIfRequested V signed.payload.block ctx.history ctx.keyHistory
    ctx.qcVerification ctx.chainId
  return [.safety (.proposalReceived ⟨signed, signerValidatorId⟩),
    .pacemaker (.onProposalReceived view), .pacemaker (.onQc justifyView)]

def ingressVote (signed : Signed Vote) (bls : Option BlsPartialSig) :
    Except IngressError (List Dispatch) := do
  let signerValidatorId ←
    verifySignerAt signed.signer signed.payload.view ctx.history ctx.keyHistory
  verifySig V .vote signed ctx.chainId
  verifyBlsPartialIfRequired V signed bls ctx.qcVerification ctx.chainId
  let bls ← okOr bls .panicked
  return [.safety (.voteReceived ⟨⟨signed, signerValidatorId⟩, bls⟩)]

def ingressNewView (signed : Signed NewView) : Except IngressError (List Dispatch) := do
  let highQcView := signed.payload.highQc.view
  let signerValidatorId ← verifySignerAt signed.signer highQcView ctx.history ctx.keyHistory
  verifySig V .newView signed ctx.chainId
  require (signed.payload.highQc.isWellFormed (ctx.history.setAt highQcView))
    (.malformedHighQc highQcView)
  verifyQcIfRequested V signed.payload.highQc ctx.history ctx.qcVerification ctx.chainId
  return [.safety (.newViewReceived ⟨signed, signerValidatorId⟩), .pacemaker (.onQc highQcView)]

def ingressTimeoutVote (signed : Signed TimeoutVote) : Except IngressError (List Dispatch) := do
  let _ ← verifySignerAt signed.signer signed.payload.view ctx.history ctx.keyHistory
  verifySig V .timeoutVote signed ctx.chainId
  let highQcTrusted := verifyHighQcPiggyback V signed.payload.highQc ctx.history
    ctx.qcVerification ctx.chainId
  return [.timeoutVote signed highQcTrusted]

def ingressBlockResponse (signed : Signed BlockResponsePayload) (sender : NodeId) :
    Except IngressError (List Dispatch) := do
  verifySig V .blockResponse signed ctx.chainId
  return [.receiveBlock signed.payload.requestedHash signed.payload.block sender]

def ingressBlockRangeResponse (signed : Signed BlockRangeResponsePayload) (sender : NodeId) :
    Except IngressError (List Dispatch) := do
  verifySig V .blockRangeResponse signed ctx.chainId
  return [.receiveBlockRange signed.payload.fromHeight signed.payload.toHeight
    signed.payload.blocks sender]

def ingressEquivocationEvidence (proof : EquivocationProof) :
    Except IngressError (List Dispatch) :=
  match verifyEquivocationProof V P proof ctx.history ctx.keyHistory ctx.chainId with
  | .ok validatorId => .ok [.receiveEquivocationEvidence proof validatorId]
  | .error e => .error (.invalidEquivocationEvidence e)

def ingressWireWithQcVerification (sender : NodeId) :
    WireMessage → Except IngressError (List Dispatch)
  | .proposal signed => ingressProposal V ctx signed
  | .vote signed bls => ingressVote V ctx signed bls
  | .newView signed => ingressNewView V ctx signed
  | .timeoutVote signed => ingressTimeoutVote V ctx signed
  | .status committedHeight => .ok [.peerStatus sender committedHeight]
  | .blockRequest hash => .ok [.serveBlock hash sender]
  | .blockResponse signed => ingressBlockResponse V ctx signed sender
  | .snapshotManifestRequest height => .ok [.serveSnapshotManifest height sender]
  | .snapshotManifestResponse manifest => .ok [.receiveSnapshotManifest manifest sender]
  | .snapshotChunkRequest height chunkIdx => .ok [.serveSnapshotChunk height chunkIdx sender]
  | .snapshotChunkResponse height chunkIdx payload =>
    .ok [.receiveSnapshotChunk height chunkIdx payload sender]
  | .blockRangeRequest fromHeight toHeight => .ok [.serveBlockRange fromHeight toHeight sender]
  | .blockRangeResponse signed => ingressBlockRangeResponse V ctx signed sender
  | .equivocationEvidence proof => ingressEquivocationEvidence P V ctx proof

end

/-- The certificate that a dispatch hands on as verified. -/
inductive Admits : Dispatch → QuorumCertificate → Prop
  | justify (verified : Verified (Signed Proposal)) :
    Admits (.safety (.proposalReceived verified)) verified.value.payload.justify
  | highQc (verified : Verified (Signed NewView)) :
    Admits (.safety (.newViewReceived verified)) verified.value.payload.highQc
  | piggyback {signed : Signed TimeoutVote} {qc : QuorumCertificate}
    (highQc : signed.payload.highQc = some qc) : Admits (.timeoutVote signed true) qc

/-- A quorum of the set of the certificate's view has signed the vote. -/
structure QcSound (V : Verifier) (ctx : IngressContext) (qc : QuorumCertificate) : Prop where
  len_eq : qc.signers.len = (ctx.history.setAt qc.view).len
  quorum : qc.hasQuorum (ctx.history.setAt qc.view) = true
  aggregate : AggregateVerifies V qc ctx.history ctx.qcVerification ctx.chainId

section
variable {P : Primitives} {V : Verifier} {ctx : IngressContext}

theorem ingressProposal_eq_ok {signed : Signed Proposal} {ds : List Dispatch}
    (h : ingressProposal V ctx signed = .ok ds) : ∃ id,
      ds = [.safety (.proposalReceived ⟨signed, id⟩),
        .pacemaker (.onProposalReceived signed.payload.block.header.view),
        .pacemaker (.onQc signed.payload.justify.view)] ∧
      verifyQcIfRequested V signed.payload.justify ctx.history ctx.qcVerification ctx.chainId =
        .ok () := by
  obtain ⟨id, -, h⟩ := bind_eq_ok.mp h
  obtain ⟨_, -, h⟩ := bind_eq_ok.mp h
  obtain ⟨_, hqc, h⟩ := bind_eq_ok.mp h
  obtain ⟨_, -, h⟩ := bind_eq_ok.mp h
  exact ⟨id, (Except.ok.inj h).symm, hqc⟩

theorem ingressNewView_eq_ok {signed : Signed NewView} {ds : List Dispatch}
    (h : ingressNewView V ctx signed = .ok ds) : ∃ id,
      ds = [.safety (.newViewReceived ⟨signed, id⟩),
        .pacemaker (.onQc signed.payload.highQc.view)] ∧
      verifyQcIfRequested V signed.payload.highQc ctx.history ctx.qcVerification ctx.chainId =
        .ok () := by
  obtain ⟨id, -, h⟩ := bind_eq_ok.mp h
  obtain ⟨_, -, h⟩ := bind_eq_ok.mp h
  obtain ⟨_, -, h⟩ := bind_eq_ok.mp h
  obtain ⟨_, hqc, h⟩ := bind_eq_ok.mp h
  exact ⟨id, (Except.ok.inj h).symm, hqc⟩

theorem ingressTimeoutVote_eq_ok {signed : Signed TimeoutVote} {ds : List Dispatch}
    (h : ingressTimeoutVote V ctx signed = .ok ds) :
    ds = [.timeoutVote signed (verifyHighQcPiggyback V signed.payload.highQc ctx.history
      ctx.qcVerification ctx.chainId)] := by
  obtain ⟨_, -, h⟩ := bind_eq_ok.mp h
  obtain ⟨_, -, h⟩ := bind_eq_ok.mp h
  exact (Except.ok.inj h).symm

theorem verifyQcIfRequested_of_piggyback {qc : QuorumCertificate}
    (h : verifyHighQcPiggyback V (some qc) ctx.history ctx.qcVerification ctx.chainId = true) :
    verifyQcIfRequested V qc ctx.history ctx.qcVerification ctx.chainId = .ok () := by
  simp only [verifyHighQcPiggyback] at h
  split_ifs at h
  cases hr : verifyQcIfRequested V qc ctx.history ctx.qcVerification ctx.chainId with
  | ok u => rfl
  | error e =>
    rw [hr] at h
    cases h

/-- Every admitted certificate went through `verify_qc_if_requested`. -/
theorem verifyQcIfRequested_of_admits {sender : NodeId} {msg : WireMessage} {ds : List Dispatch}
    {d : Dispatch} {qc : QuorumCertificate}
    (h : ingressWireWithQcVerification P V ctx sender msg = .ok ds) (hd : d ∈ ds)
    (ha : Admits d qc) :
    verifyQcIfRequested V qc ctx.history ctx.qcVerification ctx.chainId = .ok () := by
  cases msg with
  | proposal signed =>
    obtain ⟨id, rfl, hqc⟩ := ingressProposal_eq_ok h
    simp only [List.mem_cons, List.not_mem_nil, or_false] at hd
    rcases hd with rfl | rfl | rfl <;> cases ha
    exact hqc
  | newView signed =>
    obtain ⟨id, rfl, hqc⟩ := ingressNewView_eq_ok h
    simp only [List.mem_cons, List.not_mem_nil, or_false] at hd
    rcases hd with rfl | rfl <;> cases ha
    exact hqc
  | timeoutVote signed =>
    obtain rfl := ingressTimeoutVote_eq_ok h
    rw [List.mem_singleton] at hd
    generalize htrust : verifyHighQcPiggyback V signed.payload.highQc ctx.history
      ctx.qcVerification ctx.chainId = trusted at hd
    subst hd
    cases ha with
    | piggyback hq =>
      rw [hq] at htrust
      exact verifyQcIfRequested_of_piggyback htrust
  | vote signed bls =>
    obtain ⟨_, -, h⟩ := bind_eq_ok.mp h
    obtain ⟨_, -, h⟩ := bind_eq_ok.mp h
    obtain ⟨_, -, h⟩ := bind_eq_ok.mp h
    obtain ⟨_, -, h⟩ := bind_eq_ok.mp h
    obtain rfl := Except.ok.inj h
    rw [List.mem_singleton.mp hd] at ha
    cases ha
  | blockResponse signed =>
    obtain ⟨_, -, h⟩ := bind_eq_ok.mp h
    obtain rfl := Except.ok.inj h
    rw [List.mem_singleton.mp hd] at ha
    cases ha
  | blockRangeResponse signed =>
    obtain ⟨_, -, h⟩ := bind_eq_ok.mp h
    obtain rfl := Except.ok.inj h
    rw [List.mem_singleton.mp hd] at ha
    cases ha
  | equivocationEvidence proof =>
    simp only [ingressWireWithQcVerification, ingressEquivocationEvidence] at h
    split at h
    · obtain rfl := Except.ok.inj h
      rw [List.mem_singleton.mp hd] at ha
      cases ha
    · cases h
  | _ =>
    obtain rfl := Except.ok.inj h
    rw [List.mem_singleton.mp hd] at ha
    cases ha

/-- Of the three parts of soundness ingress leaves exactly the quorum unchecked. -/
theorem qcSound_iff_hasQuorum {sender : NodeId} {msg : WireMessage} {ds : List Dispatch}
    {d : Dispatch} {qc : QuorumCertificate}
    (h : ingressWireWithQcVerification P V ctx sender msg = .ok ds) (hd : d ∈ ds)
    (ha : Admits d qc) (hv : 0 < qc.view) :
    QcSound V ctx qc ↔ qc.hasQuorum (ctx.history.setAt qc.view) = true := by
  constructor
  · exact fun hs => hs.quorum
  · intro hq
    have hpass := verifyQcIfRequested_of_admits h hd ha
    rcases (verifyQcIfRequested_eq_ok hv).mp hpass with hc | hagg
    · exact absurd hc (QuorumCertificate.signerCount_ne_zero_of_hasQuorum hq)
    · exact ⟨hagg.len_eq, hq, hagg⟩

end

namespace Sample

/-- Accepts every signature; blocks leave the histories as they are. -/
def verifier : Verifier where
  ed25519 := fun _ _ _ => true
  blsPartial := fun _ _ _ => true
  fastAggregate := fun _ _ _ => true
  postBlockCommitment := fun _ _ _ _ _ _ _ => 0

def context : IngressContext where
  history := .fromGenesis validators
  keyHistory := .new [1, 2, 3, 4]
  qcVerification := ⟨some (.withGenesis [(1, 11), (2, 12), (3, 13), (4, 14)]), none, 0,
    genesis.hash primitives⟩
  chainId := 0

def newViewOf (qc : QuorumCertificate) : Signed NewView := ⟨⟨qc⟩, 1, 0⟩

/-- The dispatches of an accepted `NewView` from validator 1. -/
def newViewDispatches (qc : QuorumCertificate) : List Dispatch :=
  [.safety (.newViewReceived ⟨newViewOf qc, 1⟩), .pacemaker (.onQc qc.view)]

theorem qcSound_certified : QcSound verifier context (certify d₁.block [0, 1, 2]) := by
  have hok : ingressWireWithQcVerification primitives verifier context 1
      (.newView (newViewOf (certify d₁.block [0, 1, 2]))) =
        .ok (newViewDispatches (certify d₁.block [0, 1, 2])) := by decide +kernel
  have hquorum := qcSound_iff_hasQuorum hok (List.mem_cons_self ..) (.highQc _) (by decide)
  exact hquorum.mpr (by decide +kernel)

/-- A certificate of view 1 without any signer enters with a `NewView`. -/
theorem not_qcSound_unsigned :
    ∃ ds d, ingressWireWithQcVerification primitives verifier context 1
        (.newView (newViewOf (certify d₁.block []))) = .ok ds ∧ d ∈ ds ∧
      Admits d (certify d₁.block []) ∧ 0 < (certify d₁.block []).view ∧
      ¬ QcSound verifier context (certify d₁.block []) := by
  refine ⟨newViewDispatches (certify d₁.block []), _, by decide +kernel, List.mem_cons_self ..,
    .highQc _, by decide, fun h => ?_⟩
  exact absurd h.quorum (by decide +kernel)

end Sample

end Boule
