import Boule.Dispatch.Wire

/-! The checks that ingress runs on signers, envelopes, partial signatures and certificates. -/
namespace Boule

inductive AggregateVerifyError where
  | lengthMismatch (bitmapLen pubkeysLen : ℕ)
  | malformed (reason : String)
  | invalidAggregate
  deriving DecidableEq

variable (V : Verifier)

def verifySignerAt (signer : NodeId) (view : ℕ) (history : ValidatorSetHistory)
    (keyHistory : ValidatorKeyHistory) : Except IngressError ValidatorId := do
  let stableId ← okOr (keyHistory.validatorFor signer) (.unknownSigner signer)
  require ((history.setAt view).indexOf stableId).isSome (.unknownSigner signer)
  let active ← okOr (keyHistory.keyAt stableId view) .panicked
  require (active = signer) (.unknownSigner signer)
  return stableId

def verifySig {α : Type} (wrap : α → SignedPayload) (signed : Signed α) (chainId : ChainId) :
    Except IngressError Unit :=
  require (V.ed25519 signed.signer (preimage (wrap signed.payload) chainId) signed.sig)
    .invalidSignature

def verifyBlsPartialIfRequired (signed : Signed Vote) (bls : Option BlsPartialSig)
    (qcv : QcVerification) (chainId : ChainId) : Except IngressError Unit := do
  let error := IngressError.invalidBlsPartial signed.payload.view signed.signer
  let bls ← okOr bls error
  let blsHistory ← okOr qcv.blsKeyHistory error
  let blsPubkey ← okOr (blsHistory.keyAt signed.signer signed.payload.view) error
  require (V.blsPartial blsPubkey
    (votePreimage signed.payload.view signed.payload.blockHash chainId) bls) error

/-- `BlsAggregated::verify_aggregate` -/
def verifyAggregate (agg : BlsAggregate) (signers : SignerBitmap) (message : Preimage)
    (pubkeys : List BlsPublicKey) : Except AggregateVerifyError Unit := do
  require (signers.len = pubkeys.length) (.lengthMismatch signers.len pubkeys.length)
  if signers.count = 0 then
    require (agg = emptyAggregate) (.malformed "non-empty aggregate with no signers in bitmap")
  else
    require (agg ≠ emptyAggregate) (.malformed "empty aggregate with non-zero signer bitmap")
    require (V.fastAggregate agg message (signers.iterSet.filterMap (pubkeys[·]?)))
      .invalidAggregate

def verifyQcIfRequested (qc : QuorumCertificate) (history : ValidatorSetHistory)
    (qcv : QcVerification) (chainId : ChainId) : Except IngressError Unit :=
  let error := IngressError.invalidQcAggregate qc.view blsName
  if qc.view = 0 ∧ qc.blockHash ≠ qcv.genesisHash then .error error
  else if qc.view = 0 ∨ qc.signerCount = 0 then .ok ()
  else do
    let blsHistory ← okOr qcv.blsKeyHistory error
    let pubkeys ← withError (blsHistory.pubkeysForSet (history.setAt qc.view) qc.view) error
    withError (verifyAggregate V qc.signatures qc.signers
      (votePreimage qc.view qc.blockHash chainId) pubkeys) error

def verifyHighQcPiggyback (highQc : Option QuorumCertificate) (history : ValidatorSetHistory)
    (qcv : QcVerification) (chainId : ChainId) : Bool :=
  match highQc with
  | none => true
  | some qc =>
    if !qc.isWellFormed (history.setAt qc.view) then false
    else (verifyQcIfRequested V qc history qcv chainId).isOk

def verifyProposalHistoryCommitmentIfRequested (block : Block) (history : ValidatorSetHistory)
    (keyHistory : ValidatorKeyHistory) (qcv : QcVerification) (chainId : ChainId) :
    Except IngressError Unit :=
  let actual := V.postBlockCommitment block history keyHistory qcv.blsKeyHistory
    qcv.operatorKeyHistory chainId qcv.minVEffDelay
  require (actual = block.header.validatorHistoryCommitment)
    (.invalidValidatorHistoryCommitment block.header.view block.header.height
      block.header.validatorHistoryCommitment actual)

def verifyConflictingPair {α : Type} (wrap : α → SignedPayload) (a b : Signed α)
    (viewA viewB : ℕ) (blockA blockB : BlockHash) (history : ValidatorSetHistory)
    (keyHistory : ValidatorKeyHistory) (chainId : ChainId) :
    Except EquivocationError ValidatorId := do
  require (viewA = viewB) .differentViews
  require (blockA ≠ blockB) .notConflicting
  withError (verifySig V wrap a chainId) .invalidSignature
  withError (verifySig V wrap b chainId) .invalidSignature
  let idA ← withError (verifySignerAt a.signer viewA history keyHistory) .badSigner
  let idB ← withError (verifySignerAt b.signer viewB history keyHistory) .badSigner
  require (idA = idB) .differentValidators
  return idA

def verifyEquivocationProof (P : Primitives) (proof : EquivocationProof)
    (history : ValidatorSetHistory) (keyHistory : ValidatorKeyHistory) (chainId : ChainId) :
    Except EquivocationError ValidatorId :=
  match proof with
  | .doubleVote a b =>
    verifyConflictingPair V .vote a b a.payload.view b.payload.view a.payload.blockHash
      b.payload.blockHash history keyHistory chainId
  | .doubleProposal a b =>
    verifyConflictingPair V .proposal a b a.payload.block.header.view
      b.payload.block.header.view (a.payload.block.hash P) (b.payload.block.hash P) history
      keyHistory chainId

/-- The certificate's aggregate verifies under the keys of the set of its view. -/
def AggregateVerifies (qc : QuorumCertificate) (history : ValidatorSetHistory)
    (qcv : QcVerification) (chainId : ChainId) : Prop :=
  ∃ blsHistory pubkeys, qcv.blsKeyHistory = some blsHistory ∧
    blsHistory.pubkeysForSet (history.setAt qc.view) qc.view = .ok pubkeys ∧
    verifyAggregate V qc.signatures qc.signers (votePreimage qc.view qc.blockHash chainId)
      pubkeys = .ok ()

variable {V}

theorem len_eq_of_verifyAggregate {agg : BlsAggregate} {signers : SignerBitmap}
    {message : Preimage} {pubkeys : List BlsPublicKey}
    (h : verifyAggregate V agg signers message pubkeys = .ok ()) :
    signers.len = pubkeys.length := by
  obtain ⟨_, hlen, -⟩ := bind_eq_ok.mp h
  exact of_decide_eq_true (require_eq_ok.mp hlen)

theorem AggregateVerifies.len_eq {qc : QuorumCertificate} {history : ValidatorSetHistory}
    {qcv : QcVerification} {chainId : ChainId}
    (h : AggregateVerifies V qc history qcv chainId) :
    qc.signers.len = (history.setAt qc.view).len := by
  obtain ⟨blsHistory, pubkeys, -, hk, ha⟩ := h
  rw [len_eq_of_verifyAggregate ha, BlsKeyHistory.length_of_pubkeysForSet hk]

/-- Outside view zero a certificate passes without signers, or by its aggregate. -/
theorem verifyQcIfRequested_eq_ok {qc : QuorumCertificate} {history : ValidatorSetHistory}
    {qcv : QcVerification} {chainId : ChainId} (hv : 0 < qc.view) :
    verifyQcIfRequested V qc history qcv chainId = .ok () ↔
      qc.signerCount = 0 ∨ AggregateVerifies V qc history qcv chainId := by
  have hz : qc.view ≠ 0 := by omega
  unfold verifyQcIfRequested AggregateVerifies
  simp only [hz, false_and, if_false, false_or]
  by_cases hc : qc.signerCount = 0
  · simp [hc]
  · simp only [hc, if_false, false_or]
    constructor
    · intro h
      obtain ⟨blsHistory, hb, h⟩ := bind_eq_ok.mp h
      obtain ⟨pubkeys, hp, h⟩ := bind_eq_ok.mp h
      exact ⟨blsHistory, pubkeys, okOr_eq_ok.mp hb, withError_eq_ok.mp hp, withError_eq_ok.mp h⟩
    · rintro ⟨blsHistory, pubkeys, hb, hp, h⟩
      exact bind_eq_ok.mpr ⟨blsHistory, okOr_eq_ok.mpr hb,
        bind_eq_ok.mpr ⟨pubkeys, withError_eq_ok.mpr hp, withError_eq_ok.mpr h⟩⟩

end Boule
