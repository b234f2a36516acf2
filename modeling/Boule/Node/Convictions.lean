import Boule.Lib.Gathered
import Boule.Node.NoDoubleVote
import Boule.Node.OneProposal
import Boule.Rotation

/-! Who is convicted by a proof of equivocation, and that it is never a validator whose keys sign
only what its node sends. -/
namespace Boule

/-! ### Committed evidence -/

/-- `EVIDENCE_TAG` -/
def evidenceTag : Bytes := [0x45, 0x56, 0x44, 0x4e, 0x43, 0x00]

/-- `MAX_EVIDENCE_AGE_VIEWS` -/
def maxEvidenceAgeViews : ℕ := 1024

def EquivocationProof.view : EquivocationProof → ℕ
  | doubleVote a _ => a.payload.view
  | doubleProposal a _ => a.payload.block.header.view

section
variable (P : Primitives) (V : Verifier) (decodeBody : Bytes → Option EquivocationProof)
  (history : ValidatorSetHistory) (keyHistory : ValidatorKeyHistory) (chainId : ChainId)

/-- The validator that a command of a block convicts, with the view of the evidence. -/
def convictedBy (blockView : ℕ) (bytes : Bytes) : Option (ValidatorId × ℕ) := do
  let proof ← decodeTagged evidenceTag decodeBody bytes
  let who ← (verifyEquivocationProof V P proof history keyHistory chainId).toOption
  if blockView < proof.view ∨ maxEvidenceAgeViews < blockView - proof.view then none
  else some (who, proof.view)

/-- Evidence against a validator is taken once; the second part are the validators that are
slashed. -/
def applyEvidence (blockView : ℕ) (state : Table ValidatorId ℕ × List ValidatorId)
    (bytes : Bytes) : Table ValidatorId ℕ × List ValidatorId :=
  match convictedBy P V decodeBody history keyHistory chainId blockView bytes with
  | none => state
  | some (who, view) =>
    if state.1.containsKey who then state else (state.1.insert who view, state.2 ++ [who])

def applyCommittedEvidence (committed : Table ValidatorId ℕ) (block : Block) :
    Table ValidatorId ℕ × List ValidatorId :=
  block.commands.foldl
    (applyEvidence P V decodeBody history keyHistory chainId block.header.view) (committed, [])

variable {P V decodeBody history keyHistory chainId}

theorem verified_of_convictedBy {blockView : ℕ} {bytes : Bytes} {who : ValidatorId} {view : ℕ}
    (h : convictedBy P V decodeBody history keyHistory chainId blockView bytes =
      some (who, view)) :
    ∃ proof, verifyEquivocationProof V P proof history keyHistory chainId = .ok who := by
  obtain ⟨proof, -, h⟩ := Option.bind_eq_some_iff.mp h
  obtain ⟨id, hid, h⟩ := Option.bind_eq_some_iff.mp h
  split_ifs at h
  obtain ⟨rfl, -⟩ := Prod.mk.inj (Option.some.inj h)
  exact ⟨proof, toOption_eq_some.mp hid⟩

/-- Every validator that a block slashes is convicted by an accepted proof. -/
theorem verified_of_slashed (committed : Table ValidatorId ℕ) (block : Block) :
    ∀ who ∈ (applyCommittedEvidence P V decodeBody history keyHistory chainId committed block).2,
      ∃ proof, verifyEquivocationProof V P proof history keyHistory chainId = .ok who := by
  refine List.foldlRecOn (motive := fun state : Table ValidatorId ℕ × List ValidatorId =>
    ∀ who ∈ state.2, ∃ proof,
      verifyEquivocationProof V P proof history keyHistory chainId = .ok who) block.commands
    (applyEvidence P V decodeBody history keyHistory chainId block.header.view) nofun ?_
  intro state hstate bytes _ who hwho
  unfold applyEvidence at hwho
  cases hconvicted : convictedBy P V decodeBody history keyHistory chainId block.header.view
      bytes with
  | none =>
    rw [hconvicted] at hwho
    exact hstate who hwho
  | some found =>
    rw [hconvicted] at hwho
    simp only at hwho
    split_ifs at hwho with hknown
    · exact hstate who hwho
    · rcases List.mem_append.mp hwho with hold | hnew
      · exact hstate who hold
      · rw [List.mem_singleton.mp hnew]
        exact verified_of_convictedBy hconvicted

end

/-! ### Soundness of the proof -/

namespace SignedPayload

/-- Two messages of one kind for one view that name different blocks. -/
def Conflict (P : Primitives) (view : ℕ) : SignedPayload → SignedPayload → Prop
  | .vote a, .vote b => a.view = view ∧ b.view = view ∧ a.blockHash ≠ b.blockHash
  | .proposal a, .proposal b =>
    a.block.header.view = view ∧ b.block.header.view = view ∧ a.block.hash P ≠ b.block.hash P
  | _, _ => False

/-- Votes and proposals. -/
def namesBlock : SignedPayload → Bool
  | .vote _ => true
  | .proposal _ => true
  | _ => false

end SignedPayload

open SignedPayload

section
variable {P : Primitives} {V : Verifier} {history : ValidatorSetHistory}
  {keyHistory : ValidatorKeyHistory} {chainId : ChainId}

theorem keyAt_of_verifySignerAt {signer : NodeId} {view : ℕ} {id : ValidatorId}
    (h : verifySignerAt signer view history keyHistory = .ok id) :
    keyHistory.keyAt id view = some signer := by
  obtain ⟨stableId, -, h⟩ := bind_eq_ok.mp h
  obtain ⟨_, -, h⟩ := bind_eq_ok.mp h
  obtain ⟨active, hactive, h⟩ := bind_eq_ok.mp h
  obtain ⟨_, hsame, h⟩ := bind_eq_ok.mp h
  obtain rfl := Except.ok.inj h
  rw [okOr_eq_ok.mp hactive, of_decide_eq_true (require_eq_ok.mp hsame)]

/-- Both messages are signed by the key that is active for the validator at their view. -/
theorem signed_of_conflictingPair {α : Type} {wrap : α → SignedPayload} {a b : Signed α}
    {viewA viewB : ℕ} {blockA blockB : BlockHash} {id : ValidatorId}
    (h : verifyConflictingPair V wrap a b viewA viewB blockA blockB history keyHistory chainId =
      .ok id) :
    (viewB = viewA ∧ blockA ≠ blockB) ∧ ∃ key, keyHistory.keyAt id viewA = some key ∧
      V.ed25519 key (preimage (wrap a.payload) chainId) a.sig = true ∧
      V.ed25519 key (preimage (wrap b.payload) chainId) b.sig = true := by
  obtain ⟨_, hviews, h⟩ := bind_eq_ok.mp h
  obtain ⟨_, hblocks, h⟩ := bind_eq_ok.mp h
  obtain ⟨_, hsigA, h⟩ := bind_eq_ok.mp h
  obtain ⟨_, hsigB, h⟩ := bind_eq_ok.mp h
  obtain ⟨idA, hidA, h⟩ := bind_eq_ok.mp h
  obtain ⟨idB, hidB, h⟩ := bind_eq_ok.mp h
  obtain ⟨_, hids, h⟩ := bind_eq_ok.mp h
  obtain rfl := Except.ok.inj h
  have hview : viewA = viewB := of_decide_eq_true (require_eq_ok.mp hviews)
  have hid : idA = idB := of_decide_eq_true (require_eq_ok.mp hids)
  have hkeyA := keyAt_of_verifySignerAt (withError_eq_ok.mp hidA)
  have hkeyB := keyAt_of_verifySignerAt (withError_eq_ok.mp hidB)
  rw [← hview, ← hid, hkeyA] at hkeyB
  refine ⟨⟨hview.symm, of_decide_eq_true (require_eq_ok.mp hblocks)⟩, a.signer, hkeyA, ?_, ?_⟩
  · exact require_eq_ok.mp (withError_eq_ok.mp hsigA)
  · rw [Option.some.inj hkeyB]
    exact require_eq_ok.mp (withError_eq_ok.mp hsigB)

/-- The holder of the key has signed two conflicting messages for the chain. -/
def SignedConflict (P : Primitives) (Signs : NodeId → Preimage → Prop) (key : NodeId)
    (chainId : ChainId) (view : ℕ) : Prop :=
  ∃ a b, Conflict P view a b ∧ Signs key (preimage a chainId) ∧ Signs key (preimage b chainId)

theorem signedConflict_of_verified {Signs : NodeId → Preimage → Prop}
    (hforge : ∀ key message sig, V.ed25519 key message sig = true → Signs key message)
    {proof : EquivocationProof} {id : ValidatorId}
    (h : verifyEquivocationProof V P proof history keyHistory chainId = .ok id) :
    ∃ key, keyHistory.keyAt id proof.view = some key ∧
      SignedConflict P Signs key chainId proof.view := by
  cases proof with
  | doubleVote a b =>
    obtain ⟨⟨hview, hblock⟩, key, hkey, hsigA, hsigB⟩ := signed_of_conflictingPair h
    exact ⟨key, hkey, .vote a.payload, .vote b.payload, ⟨rfl, hview, hblock⟩,
      hforge _ _ _ hsigA, hforge _ _ _ hsigB⟩
  | doubleProposal a b =>
    obtain ⟨⟨hview, hblock⟩, key, hkey, hsigA, hsigB⟩ := signed_of_conflictingPair h
    exact ⟨key, hkey, .proposal a.payload, .proposal b.payload, ⟨rfl, hview, hblock⟩,
      hforge _ _ _ hsigA, hforge _ _ _ hsigB⟩

end

/-! ### What an honest node signs -/

def ConsensusMsg.payload : ConsensusMsg → SignedPayload
  | .proposal p => .proposal p
  | .vote v => .vote v
  | .newView nv => .newView nv

namespace Machine

/-- What has left the node as proposals, votes and new views. -/
def sentPayloads (m : Machine) : List SignedPayload := m.sent.map ConsensusMsg.payload

/-- The holder of the key signs no votes or proposals but those that the node has sent. -/
def HoldsKey (m : Machine) (Signs : NodeId → Preimage → Prop) (chainId : ChainId)
    (key : NodeId) : Prop :=
  ∀ payload chain, payload.namesBlock = true → Signs key (preimage payload chain) →
    chain = chainId ∧ payload ∈ m.sentPayloads

theorem mem_sent_of_proposal {m : Machine} {p : Proposal}
    (h : SignedPayload.proposal p ∈ m.sentPayloads) : ConsensusMsg.proposal p ∈ m.sent := by
  obtain ⟨msg, hmsg, hp⟩ := List.mem_map.mp h
  cases msg with
  | proposal q =>
    obtain rfl := SignedPayload.proposal.inj hp
    exact hmsg
  | vote v => cases hp
  | newView nv => cases hp

theorem mem_sentVotes_of_vote {m : Machine} {v : Vote}
    (h : SignedPayload.vote v ∈ m.sentPayloads) : v ∈ m.sentVotes := by
  obtain ⟨msg, hmsg, hv⟩ := List.mem_map.mp h
  cases msg with
  | vote w =>
    obtain rfl := SignedPayload.vote.inj hv
    exact List.mem_filterMap.mpr ⟨.vote w, hmsg, rfl⟩
  | proposal p => cases hv
  | newView nv => cases hv

end Machine

/-- A node that keeps the marker of its votes and builds above the one of its proposals. -/
def KeepsMarkers (P : Primitives) (m : Machine) (input : NodeInput) : Prop :=
  KeepsMarker P m input ∧ BuildsAbove P m input

instance (P : Primitives) (m : Machine) : DecidablePred (KeepsMarkers P m) :=
  fun input => inferInstanceAs (Decidable (KeepsMarker P m input ∧ BuildsAbove P m input))

theorem namesBlock_of_conflict {P : Primitives} {view : ℕ} {a b : SignedPayload}
    (h : Conflict P view a b) : a.namesBlock = true ∧ b.namesBlock = true := by
  cases a <;> cases b <;> first | exact ⟨rfl, rfl⟩ | cases h

theorem eq_of_nodup_filterMap {α β : Type} {f : α → Option β} {l : List α}
    (h : (l.filterMap f).Nodup) {a a' : α} (ha : a ∈ l) (ha' : a' ∈ l) {b : β}
    (hb : f a = some b) (hb' : f a' = some b) : a = a' := by
  have hsymm : Std.Symm fun a a' : α => ∀ b, f a = some b → ∀ b', f a' = some b' → b ≠ b' :=
    ⟨fun _ _ hne b hb b' hb' heq => hne b' hb' b hb heq.symm⟩
  by_contra hne
  exact (List.pairwise_filterMap.mp h).forall ha ha' hne b hb b hb' rfl

section
variable {P : Primitives} {V : Verifier} {R : ReconfigPrimitives} {cfg : NodeConfig}
  {inputs : List NodeInput}

/-- No two messages that leave the node conflict. -/
theorem no_conflict_sent (h : Along (Machine.step P V R cfg) (KeepsMarkers P) .start inputs)
    {a b : SignedPayload} (ha : a ∈ (run (Machine.step P V R cfg) .start inputs).sentPayloads)
    (hb : b ∈ (run (Machine.step P V R cfg) .start inputs).sentPayloads) (view : ℕ) :
    ¬ Conflict P view a b := by
  intro hconflict
  cases a with
  | vote v =>
    cases b with
    | vote w =>
      obtain ⟨hv, hw, hne⟩ := hconflict
      have hsound := sound_run P V R cfg (h.mono fun m input hk => hk.1)
      have hv' := List.mem_map_of_mem (f := fun v : Vote => (v.view, v.blockHash))
        (Machine.mem_sentVotes_of_vote ha)
      have hw' := List.mem_map_of_mem (f := fun v : Vote => (v.view, v.blockHash))
        (Machine.mem_sentVotes_of_vote hb)
      exact hne (congrArg Prod.snd (hsound.agree _ hv' _ hw' (hv.trans hw.symm)))
    | _ => exact hconflict
  | proposal p =>
    cases b with
    | proposal q =>
      obtain ⟨hp, hq, hne⟩ := hconflict
      have hnodup := nodup_sentProposals (h.mono fun m input hk => hk.2)
      have hsame := eq_of_nodup_filterMap hnodup (Machine.mem_sent_of_proposal ha)
        (Machine.mem_sent_of_proposal hb) (congrArg some hp) (congrArg some hq)
      rw [ConsensusMsg.proposal.inj hsame] at hne
      exact hne rfl
    | _ => exact hconflict
  | _ => cases b <;> exact hconflict

end

/-- An accepted proof shows that the holder of the active key has signed two conflicting messages.
A node that keeps its markers never sends such messages, so no proof and no block convicts a
validator whose key only that node holds. -/
theorem no_conviction (P : Primitives) (V : Verifier) (R : ReconfigPrimitives) (cfg : NodeConfig)
    (Signs : NodeId → Preimage → Prop)
    (hforge : ∀ key message sig, V.ed25519 key message sig = true → Signs key message)
    (inputs : List NodeInput)
    (h : Along (Machine.step P V R cfg) (KeepsMarkers P) .start inputs) :
    (∀ history keyHistory chainId proof id,
      verifyEquivocationProof V P proof history keyHistory chainId = .ok id →
        ∃ key, keyHistory.keyAt id proof.view = some key ∧
          SignedConflict P Signs key chainId proof.view) ∧
    (∀ a ∈ (run (Machine.step P V R cfg) .start inputs).sentPayloads,
      ∀ b ∈ (run (Machine.step P V R cfg) .start inputs).sentPayloads,
        ∀ view, ¬ Conflict P view a b) ∧
    ∀ (keyHistory : ValidatorKeyHistory) (id : ValidatorId),
      (∀ view, ∀ key ∈ keyHistory.keyAt id view,
        (run (Machine.step P V R cfg) .start inputs).HoldsKey Signs (cfg.chainId P) key) →
      ∀ history chainId,
        (∀ proof, verifyEquivocationProof V P proof history keyHistory chainId ≠ .ok id) ∧
        ∀ decodeBody committed block,
          id ∉ (applyCommittedEvidence P V decodeBody history keyHistory chainId committed
            block).2 := by
  have hproof : ∀ (keyHistory : ValidatorKeyHistory) (id : ValidatorId),
      (∀ view, ∀ key ∈ keyHistory.keyAt id view,
        (run (Machine.step P V R cfg) .start inputs).HoldsKey Signs (cfg.chainId P) key) →
      ∀ history chainId proof,
        verifyEquivocationProof V P proof history keyHistory chainId ≠ .ok id := by
    intro keyHistory id hholds history chainId proof hok
    obtain ⟨key, hkey, a, b, hconflict, ha, hb⟩ := signedConflict_of_verified hforge hok
    have hheld := hholds proof.view key hkey
    obtain ⟨hnameA, hnameB⟩ := namesBlock_of_conflict hconflict
    obtain ⟨-, hsentA⟩ := hheld a chainId hnameA ha
    obtain ⟨-, hsentB⟩ := hheld b chainId hnameB hb
    exact no_conflict_sent h hsentA hsentB proof.view hconflict
  refine ⟨fun _ _ _ _ _ hok => signedConflict_of_verified hforge hok,
    fun a ha b hb view => no_conflict_sent h ha hb view, ?_⟩
  intro keyHistory id hholds history chainId
  refine ⟨hproof keyHistory id hholds history chainId, ?_⟩
  intro decodeBody committed block hslashed
  obtain ⟨proof, hok⟩ := verified_of_slashed committed block id hslashed
  exact hproof keyHistory id hholds history chainId proof hok

namespace Sample

/-- Every signature of validator 1 is over something that its node sends; the others sign
everything. -/
def signedIn (inputs : List NodeInput) : Verifier :=
  { verifier with
    ed25519 := fun key message _ => key ≠ 1 || message ∈
      (run stepNode .start inputs).sentPayloads.map fun a => preimage a (config.chainId timed) }

/-- The node votes in view 3 and leads view 4. -/
def votingAndLeading : List NodeInput :=
  .boot :: proposed (blockOn root 3 0 []) (genesisQc timed root validators) :: rounds 4 ++
    [advanceByTimeout 3] ++ rounds 1 ++ [built (blockOn root 4 0 [])] ++ rounds 4

/-- Whoever signs in a run of node 1. -/
def signs (inputs : List NodeInput) (key : NodeId) (message : Preimage) : Prop :=
  (signedIn inputs).ed25519 key message 0 = true

theorem holdsKey_signedIn (inputs : List NodeInput) :
    (run stepNode .start inputs).HoldsKey (signs inputs) (config.chainId timed) 1 := by
  intro payload chain _ hsigned
  have hmem : preimage payload chain ∈ (run stepNode .start inputs).sentPayloads.map
      fun a => preimage a (config.chainId timed) := by
    simpa [signs, signedIn] using hsigned
  obtain ⟨a, ha, hsame⟩ := List.mem_map.mp hmem
  have hpayload : a = payload := congrArg Preimage.payload hsame
  exact ⟨(congrArg Preimage.chainId hsame).symm, hpayload ▸ ha⟩

theorem keyAt_one (view : ℕ) : (ValidatorKeyHistory.new [1, 2, 3, 4]).keyAt 1 view = some 1 := by
  have hentries : (ValidatorKeyHistory.new [1, 2, 3, 4]).byStableId.get? 1 = some [⟨0, 1⟩] := by
    decide
  rw [ValidatorKeyHistory.keyAt, hentries]
  simp [keyAt]

/-- Nobody convicts validator 1 after a run with a vote and a proposal, while validator 2 is
convicted by two of its own votes. -/
theorem votingAndLeading_innocent :
    (run stepNode .start votingAndLeading).sent.length = 3 ∧
    (∀ history chainId proof, verifyEquivocationProof (signedIn votingAndLeading) timed proof
      history (.new [1, 2, 3, 4]) chainId ≠ .ok 1) ∧
    verifyEquivocationProof (signedIn votingAndLeading) timed
      (.doubleVote ⟨⟨3, 7⟩, 2, 0⟩ ⟨⟨3, 8⟩, 2, 0⟩) (.fromGenesis validators) (.new [1, 2, 3, 4])
      (config.chainId timed) = .ok 2 ∧
    SignedConflict timed (signs votingAndLeading) 2 (config.chainId timed) 3 := by
  have hkeeps : Along stepNode (KeepsMarkers timed) .start votingAndLeading := by decide +kernel
  have hforge : ∀ key message sig, (signedIn votingAndLeading).ed25519 key message sig = true →
      signs votingAndLeading key message := fun _ _ _ h => h
  have hinnocent := no_conviction timed (signedIn votingAndLeading) reconfigs config
    (signs votingAndLeading) hforge votingAndLeading hkeeps
  have hholds : ∀ view, ∀ key ∈ (ValidatorKeyHistory.new [1, 2, 3, 4]).keyAt 1 view,
      (run stepNode .start votingAndLeading).HoldsKey (signs votingAndLeading)
        (config.chainId timed) key := by
    intro view key hkey
    rw [keyAt_one] at hkey
    obtain rfl := Option.some.inj hkey
    exact holdsKey_signedIn votingAndLeading
  have hconvicted : verifyEquivocationProof (signedIn votingAndLeading) timed
      (.doubleVote ⟨⟨3, 7⟩, 2, 0⟩ ⟨⟨3, 8⟩, 2, 0⟩) (.fromGenesis validators) (.new [1, 2, 3, 4])
      (config.chainId timed) = .ok 2 := by decide +kernel
  obtain ⟨key, hkey, hconflict⟩ := hinnocent.1 _ _ _ _ _ hconvicted
  refine ⟨by decide +kernel, fun history chainId => ?_, hconvicted, ?_⟩
  · exact (hinnocent.2.2 _ 1 hholds history chainId).1
  · have hkey₂ : (ValidatorKeyHistory.new [1, 2, 3, 4]).keyAt 2 3 = some 2 := by decide
    obtain rfl := Option.some.inj (hkey₂.symm.trans hkey)
    exact hconflict

/-- The two proposals of view 8 convict validator 1, whose key signs only what its node sends. -/
theorem honest_convicted :
    (∀ key message sig, (signedIn (behind ++ nested ++ again)).ed25519 key message sig = true →
      signs (behind ++ nested ++ again) key message) ∧
    (∀ view, ∀ key ∈ (ValidatorKeyHistory.new [1, 2, 3, 4]).keyAt 1 view,
      (run stepNode .start (behind ++ nested ++ again)).HoldsKey
        (signs (behind ++ nested ++ again)) (config.chainId timed) key) ∧
    verifyEquivocationProof (signedIn (behind ++ nested ++ again)) timed
      (.doubleProposal ⟨proposal₈ 0, 1, 0⟩ ⟨proposal₈ 1, 1, 0⟩) (.fromGenesis validators)
      (.new [1, 2, 3, 4]) (config.chainId timed) = .ok 1 := by
  refine ⟨fun _ _ _ h => h, fun view key hkey => ?_, by decide +kernel⟩
  rw [keyAt_one] at hkey
  obtain rfl := Option.some.inj hkey
  exact holdsKey_signedIn _

end Sample

end Boule
