import Boule.Lib.Run
import Boule.Node.LiveKeys

/-! The keys a validator signs with, and whether its peers expect them. -/
namespace Boule

/-! ### Signers -/

/-- The keys a validator holds, for the views from which it signs with them. -/
structure RotatableSigner where
  entries : List KeyEntry
  ne_nil : entries ≠ []
  increasing : entries.Pairwise fun e e' => e.vEff < e'.vEff

namespace RotatableSigner

def new (genesis : ℕ) : RotatableSigner where
  entries := [⟨0, genesis⟩]
  ne_nil := List.cons_ne_nil _ _
  increasing := List.pairwise_singleton _ _

/-- Refused unless the view is above all others. -/
def registerRotation (s : RotatableSigner) (vEff newKey : ℕ) : RotatableSigner × Bool :=
  if h : vEff ≤ (s.entries.getLast s.ne_nil).vEff then (s, false)
  else
    ({ entries := s.entries ++ [⟨vEff, newKey⟩]
       ne_nil := List.append_ne_nil_of_right_ne_nil _ (List.cons_ne_nil _ _)
       increasing := pairwise_give s.increasing (List.getLast?_eq_getLast_of_ne_nil s.ne_nil)
        (not_le.mp h) }, true)

/-- The key in force at the signing view. -/
def active (s : RotatableSigner) (currentView : ℕ) : ℕ :=
  ((s.entries.reverse.find? fun e => e.vEff ≤ currentView).getD (s.entries.head s.ne_nil)).key

end RotatableSigner

/-- The same with BLS keys. -/
abbrev RotatableBlsSigner := RotatableSigner

/-- What signs under a key. -/
structure Keyring where
  sign : NodeId → Preimage → ℕ
  signPartial : BlsPublicKey → Preimage → BlsPartialSig

/-- What is signed under a key verifies under it. -/
structure Keyring.Verifies (K : Keyring) (V : Verifier) : Prop where
  ed25519 : ∀ key p, V.ed25519 key p (K.sign key p) = true
  blsPartial : ∀ key p, V.blsPartial key p (K.signPartial key p) = true

section
variable (K : Keyring) (chainId : ChainId)

/-- `Signed::sign` -/
def Signed.sign {α : Type} (wrap : α → SignedPayload) (payload : α) (signer : NodeId) :
    Signed α :=
  ⟨payload, signer, K.sign signer (preimage (wrap payload) chainId)⟩

def signConsensusMsg (signer : NodeId) (blsSigner : Option BlsPublicKey) :
    ConsensusMsg → WireMessage
  | .proposal p => .proposal (Signed.sign K chainId .proposal p signer)
  | .vote v => .vote (Signed.sign K chainId .vote v signer)
    (blsSigner.map fun key => K.signPartial key (preimage (.vote v) chainId))
  | .newView nv => .newView (Signed.sign K chainId .newView nv signer)

end

/-- What a validator signs and sends; a `NewView` also to catch up a peer. -/
inductive OwnMessage where
  | consensus (msg : ConsensusMsg)
  | timeoutVote (tv : TimeoutVote)

/-- The view at which ingress looks the signer up. -/
def OwnMessage.view : OwnMessage → ℕ
  | .consensus (.proposal p) => p.block.header.view
  | .consensus (.vote v) => v.view
  | .consensus (.newView nv) => nv.highQc.view
  | .timeoutVote tv => tv.view

/-! ### A validator and the histories that it shares with its peers -/

structure SigningNode where
  signingView : ℕ
  signer : RotatableSigner
  blsSigner : RotatableBlsSigner
  validatorKeyHistory : ValidatorKeyHistory
  blsKeyHistory : Option BlsKeyHistory

inductive SigningInput where
  | rotation (rotation : ValidatorKeyRotation) (commitView : ℕ)
  | cancel (validator : NodeId) (cancellingVEff commitView : ℕ)
  | advanceToView (view : ℕ)
  | sign (msg : OwnMessage)

namespace SigningNode

def start (selfId : ValidatorId) (blsKey : BlsPublicKey) (keyHistory : ValidatorKeyHistory)
    (blsKeyHistory : Option BlsKeyHistory) : SigningNode where
  signingView := 0
  signer := .new selfId
  blsSigner := .new blsKey
  validatorKeyHistory := keyHistory
  blsKeyHistory := blsKeyHistory

/-- A rotation that commits; the validator registers its own ones. Without a BLS key it does not
commit. -/
def commitRotation (selfId : ValidatorId) (n : SigningNode) (rotation : ValidatorKeyRotation)
    (commitView : ℕ) : SigningNode :=
  match rotation.newBlsPubkey, n.validatorKeyHistory.validatorFor rotation.validator,
      n.validatorKeyHistory.applyRotation rotation commitView with
  | some blsKey, some stableId, .ok keyHistory =>
    let n := { n with
      validatorKeyHistory := keyHistory
      blsKeyHistory := rotateBls n.blsKeyHistory stableId rotation }
    if stableId = selfId then
      { n with
        signer := (n.signer.registerRotation rotation.vEff rotation.newPubkey).1
        blsSigner := (n.blsSigner.registerRotation rotation.vEff blsKey).1 }
    else n
  | _, _, _ => n

/-- Signers have no way to take a rotation back. -/
def commitCancel (n : SigningNode) (validator : NodeId) (cancellingVEff commitView : ℕ) :
    SigningNode :=
  match n.validatorKeyHistory.validatorFor validator,
      n.validatorKeyHistory.cancelPendingRotation validator cancellingVEff commitView with
  | some stableId, .ok keyHistory =>
    { n with
      validatorKeyHistory := keyHistory
      blsKeyHistory := n.blsKeyHistory.map fun bls => keepOnError
        (bls.cancelPendingRotation stableId cancellingVEff commitView) bls }
  | _, _ => n

def step (selfId : ValidatorId) (n : SigningNode) : SigningInput → SigningNode
  | .rotation rotation commitView => n.commitRotation selfId rotation commitView
  | .cancel validator cancellingVEff commitView =>
    n.commitCancel validator cancellingVEff commitView
  | .advanceToView view => { n with signingView := view }
  | .sign _ => n

/-- The message as it goes out. -/
def wire (K : Keyring) (chainId : ChainId) (n : SigningNode) : OwnMessage → WireMessage
  | .consensus msg => signConsensusMsg K chainId (n.signer.active n.signingView)
    (some (n.blsSigner.active n.signingView)) msg
  | .timeoutVote tv =>
    .timeoutVote (Signed.sign K chainId .timeoutVote tv (n.signer.active n.signingView))

end SigningNode

/-- The checks that ingress makes on the signer of a message. -/
def SignerVerifies (V : Verifier) (ctx : IngressContext) (id : ValidatorId) : WireMessage → Prop
  | .proposal signed =>
    verifySignerAt signed.signer signed.payload.block.header.view ctx.history ctx.keyHistory =
      .ok id ∧ verifySig V .proposal signed ctx.chainId = .ok ()
  | .vote signed bls =>
    verifySignerAt signed.signer signed.payload.view ctx.history ctx.keyHistory = .ok id ∧
      verifySig V .vote signed ctx.chainId = .ok () ∧
      verifyBlsPartialIfRequired V signed bls ctx.qcVerification ctx.chainId = .ok ()
  | .newView signed =>
    verifySignerAt signed.signer signed.payload.highQc.view ctx.history ctx.keyHistory = .ok id ∧
      verifySig V .newView signed ctx.chainId = .ok ()
  | .timeoutVote signed =>
    verifySignerAt signed.signer signed.payload.view ctx.history ctx.keyHistory = .ok id ∧
      verifySig V .timeoutVote signed ctx.chainId = .ok ()
  | _ => True

/-! ### The rotation in force -/

/-- The last rotation the signer knows of up to its view is also the last one committed up to the
view of the message. -/
def SameRotation (registered committed : List KeyEntry) (signingView view : ℕ) (e : KeyEntry) :
    Prop :=
  e ∈ registered ∧ e ∈ committed ∧ e.vEff ≤ signingView ∧ e.vEff ≤ view ∧
    (∀ e' ∈ registered, e'.vEff ≤ signingView → e'.vEff ≤ e.vEff) ∧
    ∀ e' ∈ committed, e'.vEff ≤ view → e'.vEff ≤ e.vEff

instance (registered committed : List KeyEntry) (signingView view : ℕ) (e : KeyEntry) :
    Decidable (SameRotation registered committed signingView view e) :=
  inferInstanceAs (Decidable (e ∈ registered ∧ e ∈ committed ∧ e.vEff ≤ signingView ∧
    e.vEff ≤ view ∧ (∀ e' ∈ registered, _) ∧ ∀ e' ∈ committed, _))

theorem getLast?_filter_of_max {entries : List KeyEntry}
    (h : entries.Pairwise fun e e' => e.vEff < e'.vEff) {e : KeyEntry} {view : ℕ}
    (he : e ∈ entries) (hle : e.vEff ≤ view)
    (hmax : ∀ e' ∈ entries, e'.vEff ≤ view → e'.vEff ≤ e.vEff) :
    (entries.filter fun e => e.vEff ≤ view).getLast? = some e := by
  obtain ⟨before, after, rfl⟩ := List.append_of_mem he
  have hlater := (List.pairwise_cons.mp (List.pairwise_append.mp h).2.1).1
  have hnone : after.filter (fun e => e.vEff ≤ view) = [] := by
    rw [List.filter_eq_nil_iff]
    intro e' he' hview
    have hmore := hlater e' he'
    have hless := hmax e' (List.mem_append_right _ (List.mem_cons_of_mem _ he'))
      (of_decide_eq_true hview)
    omega
  rw [List.filter_append, List.filter_cons_of_pos (by simpa using hle), hnone,
    List.getLast?_concat]

theorem RotatableSigner.active_of_max (s : RotatableSigner) {e : KeyEntry} {view : ℕ}
    (he : e ∈ s.entries) (hle : e.vEff ≤ view)
    (hmax : ∀ e' ∈ s.entries, e'.vEff ≤ view → e'.vEff ≤ e.vEff) : s.active view = e.key := by
  unfold RotatableSigner.active
  rw [← List.head?_filter, List.filter_reverse, List.head?_reverse,
    getLast?_filter_of_max s.increasing he hle hmax]
  rfl

theorem keyAt_of_max {entries : List KeyEntry}
    (h : entries.Pairwise fun e e' => e.vEff < e'.vEff) {e : KeyEntry} {view : ℕ}
    (he : e ∈ entries) (hle : e.vEff ≤ view)
    (hmax : ∀ e' ∈ entries, e'.vEff ≤ view → e'.vEff ≤ e.vEff) :
    keyAt entries view = some e.key := by
  unfold keyAt
  rw [takeWhile_eq_filter_of_sorted h, getLast?_filter_of_max h he hle hmax]
  rfl

namespace SigningNode

def committedKeys (n : SigningNode) (id : ValidatorId) : List KeyEntry :=
  (n.validatorKeyHistory.byStableId.get? id).getD []

def committedBlsKeys (n : SigningNode) (id : ValidatorId) : List KeyEntry :=
  (n.blsKeyHistory.bind fun bls => bls.byStableId.get? id).getD []

/-- No cancel drops a key that its validator also has from an earlier rotation. A message is
signed under the rotation that its view asks for, and a vote under the key from the genesis. -/
def Synchronous (selfId : ValidatorId) (n : SigningNode) : SigningInput → Prop
  | .cancel validator _ _ => ∀ id ∈ n.validatorKeyHistory.validatorFor validator,
    ∀ e ∈ (n.committedKeys id).getLast?, e.key ∉ (n.committedKeys id).dropLast.map KeyEntry.key
  | .sign msg =>
    ∃ e, SameRotation n.signer.entries (n.committedKeys selfId) n.signingView msg.view e ∧
      ∀ v, msg = .consensus (.vote v) → e.key = selfId ∧
        ∃ e', SameRotation n.blsSigner.entries (n.committedBlsKeys selfId) n.signingView msg.view e'
  | _ => True

/-- Peers with the same histories, in whose sets the validator has a seat, accept its signature. -/
def Accepted (V : Verifier) (K : Keyring) (selfId : ValidatorId) (n : SigningNode) :
    SigningInput → Prop
  | .sign msg => ∀ ctx : IngressContext, ctx.keyHistory = n.validatorKeyHistory →
    ctx.qcVerification.blsKeyHistory = n.blsKeyHistory →
    ((ctx.history.setAt msg.view).indexOf selfId).isSome →
      SignerVerifies V ctx selfId (n.wire K ctx.chainId msg)
  | _ => True

end SigningNode

namespace ValidatorKeyHistory

theorem Owned.applyRotation {key key' : ValidatorKeyHistory} (h : key.Owned)
    {rotation : ValidatorKeyRotation} {commitView : ℕ}
    (hr : key.applyRotation rotation commitView = .ok key') : key'.Owned := by
  obtain ⟨id, entries, last, -, hfree, he, -, -, rfl⟩ := applyRotation_eq_ok hr
  intro id' entries' hget e hmem
  rw [Table.get?_insert] at hget ⊢
  split_ifs at hget with hid
  · obtain rfl := Option.some.inj hget
    rw [hid]
    rcases List.mem_append.mp hmem with hmem | hmem
    · split_ifs
      · rfl
      · exact h id entries he e hmem
    · obtain rfl := List.mem_singleton.mp hmem
      exact if_pos rfl
  · have howner := h id' entries' hget e hmem
    rw [if_neg]
    · exact howner
    · intro hnew
      exact hid (hfree id' (hnew ▸ howner))

/-- A cancel takes a key from the index that its validator may have from an earlier entry. -/
theorem Owned.cancelPendingRotation {key key' : ValidatorKeyHistory} (h : key.Owned)
    {validator : NodeId} {cancellingVEff commitView : ℕ}
    (hc : key.cancelPendingRotation validator cancellingVEff commitView = .ok key')
    (honce : ∀ id entries last, key.validatorFor validator = some id →
      key.byStableId.get? id = some entries → entries.getLast? = some last →
        last.key ∉ entries.dropLast.map KeyEntry.key) : key'.Owned := by
  obtain ⟨id, entries, last, hid, he, hlast, -, -, rfl⟩ := cancelPendingRotation_eq_ok.mp hc
  have hone := honce id entries last hid he hlast
  have hdropped := h id entries he last (List.mem_of_getLast? hlast)
  intro id' entries' hget e hmem
  rw [Table.get?_insert] at hget
  rw [Table.get?_erase]
  split_ifs at hget with hsame
  · obtain rfl := Option.some.inj hget
    rw [hsame, if_neg]
    · exact h id entries he e (List.mem_of_mem_dropLast hmem)
    · intro hkey
      exact hone (List.mem_map.mpr ⟨e, hmem, hkey⟩)
  · have howner := h id' entries' hget e hmem
    rw [if_neg]
    · exact howner
    · intro hkey
      rw [hkey, hdropped] at howner
      exact hsame (Option.some.inj howner).symm

end ValidatorKeyHistory

namespace SigningNode

/-- What a run keeps. -/
structure Sound (n : SigningNode) : Prop where
  rooted : n.validatorKeyHistory.Rooted
  owned : n.validatorKeyHistory.Owned
  bls : HasBls Ascending n.blsKeyHistory

section
variable {V : Verifier} {K : Keyring} {selfId : ValidatorId} {n : SigningNode}

theorem get?_of_mem_committedKeys {id : ValidatorId} {e : KeyEntry}
    (h : e ∈ n.committedKeys id) :
    n.validatorKeyHistory.byStableId.get? id = some (n.committedKeys id) := by
  unfold committedKeys at *
  cases hget : n.validatorKeyHistory.byStableId.get? id with
  | none =>
    rw [hget] at h
    cases h
  | some entries => rfl

theorem Sound.signer (h : n.Sound) {view : ℕ} {e : KeyEntry}
    (hs : SameRotation n.signer.entries (n.committedKeys selfId) n.signingView view e)
    {history : ValidatorSetHistory} (hseat : ((history.setAt view).indexOf selfId).isSome) :
    verifySignerAt (n.signer.active n.signingView) view history n.validatorKeyHistory =
      .ok selfId := by
  obtain ⟨hregistered, hcommitted, hsigning, hview, hlast, hlastCommitted⟩ := hs
  have hentries := get?_of_mem_committedKeys hcommitted
  have hactive := n.signer.active_of_max hregistered hsigning hlast
  have hkey : n.validatorKeyHistory.keyAt selfId view = some e.key := by
    rw [ValidatorKeyHistory.keyAt, hentries]
    exact keyAt_of_max (h.rooted.sorted _ _ hentries) hcommitted hview hlastCommitted
  rw [hactive]
  refine bind_eq_ok.mpr ⟨selfId, okOr_eq_ok.mpr (h.owned _ _ hentries e hcommitted), ?_⟩
  refine bind_eq_ok.mpr ⟨(), require_eq_ok.mpr hseat, ?_⟩
  refine bind_eq_ok.mpr ⟨e.key, okOr_eq_ok.mpr hkey, ?_⟩
  exact bind_eq_ok.mpr ⟨(), require_eq_ok.mpr (decide_eq_true rfl), rfl⟩

/-- The BLS key that the history has for a vote is the one it is signed with. -/
theorem Sound.blsSigner (h : n.Sound) {view : ℕ} {e : KeyEntry}
    (hs : SameRotation n.blsSigner.entries (n.committedBlsKeys selfId) n.signingView view e) :
    ∃ bls, n.blsKeyHistory = some bls ∧
      bls.keyAt selfId view = some (n.blsSigner.active n.signingView) := by
  obtain ⟨hregistered, hcommitted, hsigning, hview, hlast, hlastCommitted⟩ := hs
  obtain ⟨bls, hbls, hascending⟩ := h.bls
  have hentries : bls.byStableId.get? selfId = some (n.committedBlsKeys selfId) := by
    have hmem := hcommitted
    unfold committedBlsKeys at *
    rw [hbls, Option.bind_some] at *
    cases hget : bls.byStableId.get? selfId with
    | none =>
      rw [hget] at hmem
      cases hmem
    | some entries => rfl
  refine ⟨bls, hbls, ?_⟩
  rw [BlsKeyHistory.keyAt, hentries, n.blsSigner.active_of_max hregistered hsigning hlast]
  exact keyAt_of_max (hascending _ _ hentries) hcommitted hview hlastCommitted

theorem accepted_of_synchronous (hK : K.Verifies V) (h : n.Sound) {msg : OwnMessage}
    (hs : n.Synchronous selfId (.sign msg)) : n.Accepted V K selfId (.sign msg) := by
  intro ctx hkeys hbls hseat
  obtain ⟨e, hsame, hvote⟩ := hs
  have hsigner := h.signer hsame hseat
  rw [← hkeys] at hsigner
  have hsig : ∀ {α : Type} (wrap : α → SignedPayload) (payload : α), verifySig V wrap
      (Signed.sign K ctx.chainId wrap payload (n.signer.active n.signingView)) ctx.chainId =
        .ok () := fun _ _ => require_eq_ok.mpr (hK.ed25519 _ _)
  cases msg with
  | timeoutVote tv => exact ⟨hsigner, hsig _ _⟩
  | consensus msg =>
    cases msg with
    | proposal p => exact ⟨hsigner, hsig _ _⟩
    | newView nv => exact ⟨hsigner, hsig _ _⟩
    | vote v =>
      obtain ⟨hself, e', hsame'⟩ := hvote v rfl
      obtain ⟨bls, hhistory, hkey⟩ := h.blsSigner hsame'
      have hactive := n.signer.active_of_max hsame.1 hsame.2.2.1 hsame.2.2.2.2.1
      refine ⟨hsigner, hsig _ _, ?_⟩
      refine bind_eq_ok.mpr ⟨_, rfl, ?_⟩
      refine bind_eq_ok.mpr ⟨bls, okOr_eq_ok.mpr (hbls.trans hhistory), ?_⟩
      refine bind_eq_ok.mpr ⟨_, okOr_eq_ok.mpr ?_, require_eq_ok.mpr (hK.blsPartial _ _)⟩
      change bls.keyAt (n.signer.active n.signingView) v.view = _
      rw [hactive, hself]
      exact hkey

theorem sound_commitRotation (h : n.Sound) (rotation : ValidatorKeyRotation) (commitView : ℕ) :
    (n.commitRotation selfId rotation commitView).Sound := by
  unfold commitRotation
  split
  · rename_i blsKey stableId keyHistory _ _ hr
    have hsound : Sound { n with
        validatorKeyHistory := keyHistory
        blsKeyHistory := rotateBls n.blsKeyHistory stableId rotation } :=
      ⟨h.rooted.applyRotation hr, h.owned.applyRotation hr,
        keptByEdits_ascending.rotateBls h.bls stableId rotation⟩
    simp only
    split_ifs
    · exact ⟨hsound.rooted, hsound.owned, hsound.bls⟩
    · exact hsound
  · exact h

theorem sound_commitCancel (h : n.Sound) {validator : NodeId} {cancellingVEff commitView : ℕ}
    (hs : n.Synchronous selfId (.cancel validator cancellingVEff commitView)) :
    (n.commitCancel validator cancellingVEff commitView).Sound := by
  unfold commitCancel
  split
  · rename_i stableId keyHistory hid hc
    refine ⟨h.rooted.cancelPendingRotation hc, h.owned.cancelPendingRotation hc ?_,
      keptByEdits_ascending.cancelBls h.bls stableId cancellingVEff commitView⟩
    intro id entries last hid' hentries hlast
    have hcommitted : n.committedKeys id = entries := by
      unfold committedKeys
      rw [hentries]
      rfl
    have hone := hs id hid'
    rw [hcommitted] at hone
    exact hone last hlast
  · exact h

theorem sound_step (h : n.Sound) {input : SigningInput} (hs : n.Synchronous selfId input) :
    (n.step selfId input).Sound := by
  cases input with
  | rotation rotation commitView => exact sound_commitRotation h rotation commitView
  | cancel validator cancellingVEff commitView => exact sound_commitCancel h hs
  | advanceToView view => exact ⟨h.rooted, h.owned, h.bls⟩
  | sign msg => exact h

end
end SigningNode

/-- What a validator signs is accepted by its peers as long as the rotation that it signs under is
the one that the view of the message asks for, and it votes with the key from the genesis. -/
theorem signed_accepted (V : Verifier) (K : Keyring) (hK : K.Verifies V) (cfg : NodeConfig)
    (selfId : ValidatorId) (blsKey : BlsPublicKey) (inputs : List SigningInput)
    (hs : Along (SigningNode.step selfId) (SigningNode.Synchronous selfId)
      (.start selfId blsKey cfg.genesisHistories.key cfg.genesisHistories.bls) inputs) :
    Along (SigningNode.step selfId) (SigningNode.Accepted V K selfId)
      (.start selfId blsKey cfg.genesisHistories.key cfg.genesisHistories.bls) inputs := by
  refine hs.imp_of_invariant (I := SigningNode.Sound) ?_ ?_
  · intro n input hinput hn
    refine ⟨SigningNode.sound_step hn hinput, ?_⟩
    cases input with
    | sign msg => exact SigningNode.accepted_of_synchronous hK hn hinput
    | _ => trivial
  · exact ⟨rooted_genesis cfg, owned_genesis cfg, _, rfl,
      (ordered_blsGenesis cfg.genesisBls).ascending⟩

namespace Sample

/-- A key signs with its own number, and nothing else verifies under it. -/
def ownKeys : Keyring := ⟨fun key _ => key, fun key _ => key⟩

def strict : Verifier :=
  { verifier with
    ed25519 := fun key _ sig => key = sig
    blsPartial := fun key _ sig => key = sig }

theorem ownKeys_verifies : ownKeys.Verifies strict :=
  ⟨fun _ _ => decide_eq_true rfl, fun _ _ => decide_eq_true rfl⟩

def signingNode : SigningNode :=
  .start 1 11 config.genesisHistories.key config.genesisHistories.bls

/-- Validator 1 gets the keys 31 and 51 for view 10 on. -/
def rotated : SigningInput := .rotation ⟨1, 31, 10, some 51, some ⟨51, 0⟩⟩ 5

def voteAt (view : ℕ) : SigningInput := .sign (.consensus (.vote ⟨view, 7⟩))

def newViewAt (view : ℕ) : SigningInput :=
  .sign (.consensus (.newView ⟨{ certify d₁.block [0, 1, 2] with view := view }⟩))

/-- A peer with the histories of a node and the genesis set. -/
def peerOf (n : SigningNode) : IngressContext :=
  { context with
    keyHistory := n.validatorKeyHistory
    qcVerification := { context.qcVerification with blsKeyHistory := n.blsKeyHistory } }

/-- After the rotation, neither a `NewView` with an older certificate nor any vote is accepted. -/
theorem rejected_rotated :
    ¬ Along (SigningNode.step 1) (SigningNode.Accepted strict ownKeys 1) signingNode
      [rotated, .advanceToView 12, newViewAt 8] ∧
    ¬ Along (SigningNode.step 1) (SigningNode.Accepted strict ownKeys 1) signingNode
      [rotated, .advanceToView 12, voteAt 12] := by
  constructor
  · rintro ⟨-, -, h, -⟩
    have hsigner := (h (peerOf (run (SigningNode.step 1) signingNode
      [rotated, .advanceToView 12])) rfl rfl (by decide +kernel)).1
    exact absurd hsigner (by decide +kernel)
  · rintro ⟨-, -, h, -⟩
    have hpartial := (h (peerOf (run (SigningNode.step 1) signingNode
      [rotated, .advanceToView 12])) rfl rfl (by decide +kernel)).2.2
    exact absurd hpartial (by decide +kernel)

/-- A vote before the rotation is in force, and a `NewView` with a certificate after it. -/
def inStep : List SigningInput :=
  [rotated, .advanceToView 6, voteAt 6, .advanceToView 12, newViewAt 11]

theorem inStep_accepted : Along (SigningNode.step 1) (SigningNode.Accepted strict ownKeys 1)
    signingNode inStep := by
  refine signed_accepted strict ownKeys ownKeys_verifies config 1 11 inStep
    ⟨trivial, trivial, ⟨⟨0, 1⟩, ?_, fun _ _ => ⟨rfl, ⟨0, 11⟩, ?_⟩⟩, trivial,
      ⟨⟨10, 31⟩, ?_, nofun⟩, trivial⟩
  all_goals decide +kernel

end Sample

end Boule
