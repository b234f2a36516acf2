import Boule.Node.HistoryCheck
import Boule.Node.LiveKeys

/-! Whether a node's verdict on the history commitment of a proposal depends on how much of the
chain it has committed. -/
namespace Boule
open ConsensusNode

/-! ### Signatures -/

/-- Whoever holds a key can sign a rotation from it to a fresh key, at the last view, and a cancel
of it; views are 64 bits wide. -/
structure HistoryPrimitives.Signs (R : HistoryPrimitives) (chainId : ChainId) : Prop where
  rotationView : ∀ body env, R.decodeRotation body = some env → env.payload.vEff < 2 ^ 64
  operatorView : ∀ body env, R.decodeOperatorRotation body = some env → env.payload.vEff < 2 ^ 64
  rotation : ∀ (validator currentKey : NodeId) (taken : List NodeId), ∃ bytes env,
    decodeTagged rotationTag R.decodeRotation bytes = some env ∧
      env.payload.validator = validator ∧ env.payload.newPubkey ∉ taken ∧
      env.payload.vEff = 2 ^ 64 - 1 ∧ env.verify R chainId currentKey = .ok () ∧
      env.payload.validateSchemeConsistency R chainId = .ok ()
  cancel : ∀ (validator currentKey newKey : NodeId) (vEff : ℕ), vEff < 2 ^ 64 → ∃ bytes env,
    decodeTagged rotationCancelTag R.decodeCancel bytes = some env ∧
      env.payload = ⟨validator, vEff⟩ ∧ env.verify R chainId currentKey newKey = .ok ()

/-- No entry takes effect after the last view. -/
def ValidatorKeyHistory.FitsViews (h : ValidatorKeyHistory) : Prop :=
  ∀ id entries, h.byStableId.get? id = some entries → ∀ e ∈ entries, e.vEff < 2 ^ 64

namespace ValidatorKeyHistory

theorem FitsViews.applyRotation {key key' : ValidatorKeyHistory} (h : key.FitsViews)
    {rotation : ValidatorKeyRotation} {commitView : ℕ} (hfits : rotation.vEff < 2 ^ 64)
    (hr : key.applyRotation rotation commitView = .ok key') : key'.FitsViews := by
  obtain ⟨id, entries, last, -, -, he, -, -, rfl⟩ := applyRotation_eq_ok hr
  intro id' entries' hget e hmem
  rw [Table.get?_insert] at hget
  split_ifs at hget
  · obtain rfl := Option.some.inj hget
    rcases List.mem_append.mp hmem with hmem | hmem
    · exact h id entries he e hmem
    · obtain rfl := List.mem_singleton.mp hmem
      exact hfits
  · exact h id' entries' hget e hmem

theorem FitsViews.cancelPendingRotation {key key' : ValidatorKeyHistory} (h : key.FitsViews)
    {validator : NodeId} {cancellingVEff commitView : ℕ}
    (hc : key.cancelPendingRotation validator cancellingVEff commitView = .ok key') :
    key'.FitsViews := by
  obtain ⟨id, entries, last, -, he, -, -, -, rfl⟩ := cancelPendingRotation_eq_ok.mp hc
  intro id' entries' hget e hmem
  rw [Table.get?_insert] at hget
  split_ifs at hget
  · obtain rfl := Option.some.inj hget
    exact h id entries he e (List.mem_of_mem_dropLast hmem)
  · exact h id' entries' hget e hmem

end ValidatorKeyHistory

theorem HistoryPrimitives.Signs.fits {R : HistoryPrimitives} {chainId : ChainId}
    (hsigns : R.Signs chainId) {rotation : ValidatorKeyRotation} (h : R.Decodes rotation) :
    rotation.vEff < 2 ^ 64 := by
  rcases h with ⟨body, env, hbody, rfl⟩ | ⟨body, env, hbody, rfl⟩
  · exact hsigns.rotationView body env hbody
  · exact hsigns.operatorView body env hbody

theorem Committed.fitsViews {R : HistoryPrimitives} {chainId : ChainId} {cfg : NodeConfig}
    (hsigns : R.Signs chainId) {blocks : List Block} {n : ConsensusNode}
    {changes : List KeyChange} (h : Committed R chainId cfg blocks n changes) :
    n.histories.key.FitsViews := by
  induction h with
  | genesis histories sync =>
    rw [histories]
    intro id entries he e hmem
    rw [entries_genesis] at he
    split_ifs at he
    obtain rfl := Option.some.inj he
    obtain rfl := List.mem_singleton.mp hmem
    norm_num
  | @commit blocks n n' changes storage storage' block before applied ih =>
    rw [(committedRotations_of_some applied).histories]
    rw [← key_applyReconfigs R chainId n cfg.minVEffDelay block] at ih
    exact rotated_keeps R chainId (Q := fun key _ => key.FitsViews)
      (fun hd hr h => h.applyRotation (hsigns.fits hd) hr.applied)
      (fun _ hc h => h.cancelPendingRotation hc) block ih
  | other before histories core ih =>
    rw [histories]
    exact ih

/-! ### Blocks of one rotation or cancel -/

/-- Tags are of one length, so that a command has one of them at most. -/
theorem isPrefixOf_other {tag bytes : Bytes} (tag' : Bytes) (hlen : tag.length = tag'.length)
    (hne : tag ≠ tag') (h : tag.isPrefixOf bytes = true) : tag'.isPrefixOf bytes = false := by
  rw [← Bool.not_eq_true]
  intro h'
  have hbegins := List.prefix_of_prefix_length_le (List.isPrefixOf_iff_prefix.mp h)
    (List.isPrefixOf_iff_prefix.mp h') hlen.le
  exact hne (hbegins.eq_of_length hlen)

section
variable {R : HistoryPrimitives} {chainId : ChainId} {minVEffDelay : ℕ}

theorem replayBlock_congr (h : Histories) {block block' : Block}
    (hc : block.commands = block'.commands) (hv : block.header.view = block'.header.view) :
    replayBlock R minVEffDelay chainId h block = replayBlock R minVEffDelay chainId h block' := by
  unfold replayBlock applyRotationCommandsToHistories applyReconfigCommandsToSetHistory
    cancelRotations applyOperatorRotations applyOperatorKeyRotations
  rw [hc, hv]

theorem applyReconfigCommand_of_other (blockView : ℕ) (h : Histories) {bytes : Bytes}
    (htag : reconfigTag.isPrefixOf bytes = false) :
    applyReconfigCommandToSetHistory R minVEffDelay chainId blockView h bytes = h := by
  have hnone : reconfigChange R.toReconfigPrimitives minVEffDelay chainId h.set blockView bytes =
      none := by
    unfold reconfigChange ReconfigCommand.isReconfigPayload
    rw [htag]
    rfl
  unfold applyReconfigCommandToSetHistory
  rw [hnone]

variable (R chainId) in
theorem acceptedRotation_of_other (commitView : ℕ) (key : ValidatorKeyHistory) {bytes : Bytes}
    (htag : rotationTag.isPrefixOf bytes = false) :
    acceptedRotation R chainId commitView key bytes = none := by
  unfold acceptedRotation
  rw [decodeTagged_of_other R.decodeRotation htag]
  rfl

theorem cancelOrSkip_of_other (commitView : ℕ) (h : Histories) {bytes : Bytes}
    (htag : rotationCancelTag.isPrefixOf bytes = false) :
    cancelOrSkip R chainId commitView h bytes = h := by
  unfold cancelOrSkip
  rw [applyRotationCancelCommand_eq_ok.mpr (.inl ⟨htag, rfl, rfl⟩)]
  rfl

variable (R chainId) in
theorem operatorRotateOrSkip_of_other (commitView : ℕ) (operator : OperatorKeyHistory)
    (h : Histories) {bytes : Bytes} (htag : operatorRotationTag.isPrefixOf bytes = false) :
    operatorRotateOrSkip R chainId commitView operator h bytes = h := by
  unfold operatorRotateOrSkip
  rw [applyOperatorRotationCommand_eq_ok.mpr (.inl ⟨htag, rfl, rfl⟩)]
  rfl

/-- A block of one command that is a rotation or a cancel changes the signing keys by it. -/
theorem key_replayBlock_of_single {h : Histories} {op : OperatorKeyHistory}
    (hop : h.operator = some op) {block : Block} {bytes : Bytes}
    (hc : block.commands = [bytes])
    (htag : rotationTag.isPrefixOf bytes = true ∨ rotationCancelTag.isPrefixOf bytes = true) :
    (replayBlock R minVEffDelay chainId h block).key =
      (cancelOrSkip R chainId block.header.view
        (applyRotationCommand R chainId block.header.view h bytes) bytes).key := by
  have hreconfig : reconfigTag.isPrefixOf bytes = false := by
    rcases htag with htag | htag <;> exact isPrefixOf_other _ (by rfl) (by decide) htag
  have hoperator : operatorRotationTag.isPrefixOf bytes = false := by
    rcases htag with htag | htag <;> exact isPrefixOf_other _ (by rfl) (by decide) htag
  have hsame : applyReconfigCommandsToSetHistory R minVEffDelay chainId block h = h := by
    unfold applyReconfigCommandsToSetHistory
    rw [hc]
    exact applyReconfigCommand_of_other block.header.view h hreconfig
  unfold replayBlock
  rw [hsame, applyRotationCommandsToHistories_eq R chainId block h op hop]
  unfold applyOperatorRotations cancelRotations
  rw [hc]
  have hskip := operatorRotateOrSkip_of_other R chainId block.header.view op
    (cancelOrSkip R chainId block.header.view
      (applyRotationCommand R chainId block.header.view h bytes) bytes) hoperator
  rw [← hskip]
  rfl

end

/-! ### Verdicts -/

section
variable (V : Verifier) (P : Primitives) (R : HistoryPrimitives) (cfg : NodeConfig)

/-- What the node finds of the history commitment of a proposal. -/
def ConsensusNode.historyVerdict (n : ConsensusNode) (p : Proposal) : Except IngressError Unit :=
  let ctx := n.ingressContext cfg (cfg.chainId P)
  verifyProposalHistoryCommitmentIfRequested (V.overHistories R) p.block ctx.history
    ctx.keyHistory ctx.qcVerification ctx.chainId

/-- Two nodes agree on every proposal on the tip, and take those that the leader has stamped. -/
structure SameVerdicts (n₁ n₂ leader : ConsensusNode) (tip : BlockHash) : Prop where
  agree : ∀ p : Proposal, p.block.header.parentHash = tip →
    n₁.historyVerdict V P R cfg p = n₂.historyVerdict V P R cfg p
  stamped : ∀ p : Proposal, p.block.header.parentHash = tip →
    n₁.historyVerdict V P R cfg (leader.stampProposal (V.overHistories R) cfg P p) = .ok () ∧
      n₂.historyVerdict V P R cfg (leader.stampProposal (V.overHistories R) cfg P p) = .ok ()

/-- The commitment that a node computes for a block. -/
def ConsensusNode.commitmentOf (n : ConsensusNode) (block : Block) : Bytes32 :=
  validatorHistoryCommitmentV2 R
    (replayBlock R cfg.minVEffDelay (cfg.chainId P) n.histories block)

end

section
variable {V : Verifier} {P : Primitives} {R : HistoryPrimitives} {cfg : NodeConfig}

theorem historyVerdict_eq (n : ConsensusNode) (p : Proposal) :
    n.historyVerdict V P R cfg p =
      require (n.commitmentOf P R cfg p.block = p.block.header.validatorHistoryCommitment)
        (.invalidValidatorHistoryCommitment p.block.header.view p.block.header.height
          p.block.header.validatorHistoryCommitment (n.commitmentOf P R cfg p.block)) := rfl

theorem historyVerdict_eq_ok {n : ConsensusNode} {p : Proposal} :
    n.historyVerdict V P R cfg p = .ok () ↔
      n.commitmentOf P R cfg p.block = p.block.header.validatorHistoryCommitment := by
  rw [historyVerdict_eq, require_eq_ok, decide_eq_true_eq]

theorem historyVerdict_stampProposal {n leader : ConsensusNode} {p : Proposal} :
    n.historyVerdict V P R cfg (leader.stampProposal (V.overHistories R) cfg P p) = .ok () ↔
      n.commitmentOf P R cfg p.block = leader.commitmentOf P R cfg p.block := by
  rw [historyVerdict_eq_ok]
  have hsame : n.commitmentOf P R cfg
      (leader.stampProposal (V.overHistories R) cfg P p).block =
        n.commitmentOf P R cfg p.block :=
    congrArg (validatorHistoryCommitmentV2 R) (replayBlock_congr n.histories rfl rfl)
  rw [hsame]
  rfl

theorem sameVerdicts_of_alike {n₁ n₂ leader : ConsensusNode} {tip : BlockHash}
    (h : n₁.histories.Alike n₂.histories) (hl : n₁.histories.Alike leader.histories) :
    SameVerdicts V P R cfg n₁ n₂ leader tip := by
  have hsame : ∀ {n n' : ConsensusNode}, n.histories.Alike n'.histories → ∀ block,
      n.commitmentOf P R cfg block = n'.commitmentOf P R cfg block :=
    fun ha block => commitment_eq_of_alike R (ha.replayBlock block)
  constructor
  · intro p _
    rw [historyVerdict_eq, historyVerdict_eq, hsame h]
  · intro p _
    rw [historyVerdict_stampProposal, historyVerdict_stampProposal, ← hsame h, hsame hl]
    exact ⟨rfl, rfl⟩

end

/-! ### What proposals reveal -/

section
variable {R : HistoryPrimitives} {chainId : ChainId} {minVEffDelay : ℕ}

theorem acceptedRotation_eq_some {commitView : ℕ} {key key' : ValidatorKeyHistory} {bytes : Bytes}
    {env : DualSignedRotation} {current id : NodeId}
    (henv : decodeTagged rotationTag R.decodeRotation bytes = some env)
    (hcurrent : key.currentKey env.payload.validator = some current)
    (hverify : env.verify R chainId current = .ok ())
    (hscheme : env.payload.validateSchemeConsistency R chainId = .ok ())
    (hid : key.validatorFor env.payload.validator = some id)
    (happly : key.applyRotation env.payload commitView = .ok key') :
    acceptedRotation R chainId commitView key bytes = some (env.payload, some id, key') := by
  unfold acceptedRotation
  simp only [henv, hcurrent, hverify, hscheme, hid, happly, Except.toOption, Option.bind_eq_bind,
    Option.bind_some, Option.pure_def]

/-- A rotation that names another validator leaves the entries of this one. -/
theorem get?_applyRotationCommand_of_ne {commitView : ℕ} {h : Histories} {bytes : Bytes}
    {env : DualSignedRotation} {id : NodeId}
    (henv : decodeTagged rotationTag R.decodeRotation bytes = some env)
    (hid : h.key.validatorFor env.payload.validator ≠ some id) :
    (applyRotationCommand R chainId commitView h bytes).key.byStableId.get? id =
      h.key.byStableId.get? id := by
  cases hc : acceptedRotation R chainId commitView h.key bytes with
  | none => rw [applyRotationCommand_of_none hc]
  | some accepted =>
    obtain ⟨rotation, stable, key⟩ := accepted
    obtain ⟨id', rfl, hr⟩ := rotates_of_acceptedRotation hc
    obtain ⟨env', henv', rfl⟩ := payload_of_acceptedRotation hc
    obtain rfl := Option.some.inj (henv.symm.trans henv')
    obtain ⟨id₂, entries, last, hid₂, -, -, -, -, rfl⟩ :=
      ValidatorKeyHistory.applyRotation_eq_ok hr.applied
    rw [applyRotationCommand_of_some hc]
    have hne : id ≠ id₂ := by
      rintro rfl
      exact hid hid₂
    exact Table.get?_insert_of_ne _ hne _

/-- A cancel that names another validator leaves the entries of this one. -/
theorem get?_cancelOrSkip_of_ne {commitView : ℕ} {h : Histories} {bytes : Bytes}
    {cancel : DualSignedRotationCancel} {id : NodeId}
    (hcancel : decodeTagged rotationCancelTag R.decodeCancel bytes = some cancel)
    (hid : h.key.validatorFor cancel.payload.validator ≠ some id) :
    (cancelOrSkip R chainId commitView h bytes).key.byStableId.get? id =
      h.key.byStableId.get? id := by
  rcases acceptedWithdraw_cases R chainId commitView h bytes with ⟨-, hsame⟩ | ⟨_, _, -, -, -, hc⟩
  · rw [hsame]
  · obtain ⟨cancel', _, hcancel', -, hkey, -⟩ := histories_of_cancel hc
    obtain rfl := Option.some.inj (hcancel.symm.trans hcancel')
    obtain ⟨id₂, entries, last, hid₂, -, -, -, -, heq⟩ :=
      ValidatorKeyHistory.cancelPendingRotation_eq_ok.mp hkey
    have hne : id ≠ id₂ := by
      rintro rfl
      exact hid hid₂
    rw [heq]
    exact Table.get?_insert_of_ne _ hne _

/-- A rotation to a fresh key that its validator can still record is recorded. -/
theorem exists_rotation (hsigns : R.Signs chainId) {h : Histories} (commitView : ℕ)
    {key id : NodeId} {entries : List KeyEntry} {last : KeyEntry}
    (hid : h.key.pubkeyToStableId.get? key = some id)
    (hentries : h.key.byStableId.get? id = some entries) (hlast : entries.getLast? = some last)
    (hlt : last.vEff < 2 ^ 64 - 1) : ∃ bytes env,
      decodeTagged rotationTag R.decodeRotation bytes = some env ∧
        env.payload.validator = key ∧
        (applyRotationCommand R chainId commitView h bytes).key.byStableId.get? id =
          some (entries ++ [⟨env.payload.vEff, env.payload.newPubkey⟩]) := by
  obtain ⟨bytes, env, henv, rfl, hfresh, hv, hverify, hscheme⟩ := hsigns.rotation key last.key
    (key :: h.key.pubkeyToStableId.toList.map Prod.fst)
  have hne : env.payload.newPubkey ≠ env.payload.validator := fun he =>
    hfresh (he ▸ List.mem_cons_self ..)
  have hnone : h.key.pubkeyToStableId.get? env.payload.newPubkey = none := by
    rw [Option.eq_none_iff_forall_not_mem]
    intro owner howner
    have hmem := (h.key.pubkeyToStableId.mem_toList env.payload.newPubkey owner).mpr howner
    exact hfresh (List.mem_cons_of_mem _ (List.mem_map_of_mem (f := Prod.fst) hmem))
  have hstructural : env.payload.validateStructural commitView = .ok () := by
    refine bind_eq_ok.mpr ⟨(), require_eq_ok.mpr (decide_eq_true ?_),
      require_eq_ok.mpr (decide_eq_true hne)⟩
    rw [hv]
    exact Nat.min_le_right _ _
  have happly : h.key.applyRotation env.payload commitView =
      .ok ⟨h.key.byStableId.insert id (entries ++ [⟨env.payload.vEff, env.payload.newPubkey⟩]),
        h.key.pubkeyToStableId.insert env.payload.newPubkey id⟩ := by
    refine bind_eq_ok.mpr ⟨(), mapError_eq_ok.mpr hstructural, bind_eq_ok.mpr ⟨id,
      okOr_eq_ok.mpr hid, bind_eq_ok.mpr ⟨(), refuse_eq_ok.mpr ?_, bind_eq_ok.mpr ⟨entries,
        okOr_eq_ok.mpr hentries, bind_eq_ok.mpr ⟨last, okOr_eq_ok.mpr hlast,
          bind_eq_ok.mpr ⟨(), require_eq_ok.mpr (decide_eq_true ?_), rfl⟩⟩⟩⟩⟩⟩
    · rw [hnone]
      rfl
    · rw [hv]
      exact hlt
  have hcurrent : h.key.currentKey env.payload.validator = some last.key := by
    unfold ValidatorKeyHistory.currentKey
    simp only [hid, hentries, hlast, Option.bind_eq_bind, Option.bind_some, Option.map_some]
  have haccepted := acceptedRotation_eq_some henv hcurrent hverify hscheme hid happly
  refine ⟨bytes, env, henv, rfl, ?_⟩
  rw [applyRotationCommand_of_some haccepted]
  exact Table.get?_insert_self _ _ _

/-- A pending entry can be cancelled. -/
theorem exists_cancel (hsigns : R.Signs chainId) {h : Histories} (hr : h.key.Rooted)
    (hf : h.key.FitsViews) {key id : NodeId} {entries : List KeyEntry} {last : KeyEntry}
    (hid : h.key.pubkeyToStableId.get? key = some id)
    (hentries : h.key.byStableId.get? id = some entries) (hlast : entries.getLast? = some last)
    (hpos : 0 < last.vEff) : ∃ bytes cancel,
      decodeTagged rotationCancelTag R.decodeCancel bytes = some cancel ∧
        cancel.payload.validator = key ∧
        (cancelOrSkip R chainId 0 h bytes).key.byStableId.get? id = some entries.dropLast := by
  obtain ⟨first, rest, rfl⟩ : ∃ first rest, entries = first :: rest := by
    cases entries with
    | nil => cases hlast
    | cons e es => exact ⟨e, es, rfl⟩
  have hroot : first = ⟨0, id⟩ := Option.some.inj (hr.first id _ hentries)
  have hfirst : first.vEff = 0 := by rw [hroot]
  obtain ⟨current, hcurrent⟩ : ∃ current, h.key.keyAt id 0 = some current := by
    unfold ValidatorKeyHistory.keyAt keyAt
    rw [hentries, Option.bind_some, List.takeWhile_cons_of_pos (by simp [hfirst])]
    exact Option.isSome_iff_exists.mp (by simp)
  obtain ⟨bytes, ⟨⟨_, _⟩, _, _⟩, hcancel, hpayload, hverify⟩ :=
    hsigns.cancel key current last.key last.vEff
      (hf id _ hentries last (List.mem_of_getLast? hlast))
  obtain ⟨rfl, rfl⟩ := ValidatorRotationCancel.mk.inj hpayload.symm
  have hpending : h.key.pendingRotationNewKey key last.vEff 0 = some last.key := by
    unfold ValidatorKeyHistory.pendingRotationNewKey
    simp only [hid, hentries, hlast, Option.bind_eq_bind, Option.bind_some]
    exact if_pos (by simp [hpos])
  have hkey : h.key.cancelPendingRotation key last.vEff 0 =
      .ok ⟨h.key.byStableId.insert id (first :: rest).dropLast,
        h.key.pubkeyToStableId.erase last.key⟩ :=
    ValidatorKeyHistory.cancelPendingRotation_eq_ok.mpr
      ⟨id, _, last, hid, hentries, hlast, rfl, hpos, rfl⟩
  refine ⟨bytes, _, hcancel, rfl, ?_⟩
  have hok := applyRotationCancelCommand_eq_ok.mpr (.inr ⟨_, last.key, id, current, _, hcancel,
    hpending, hid, hcurrent, hverify, hkey, rfl, rfl⟩)
  unfold cancelOrSkip
  rw [hok]
  exact Table.get?_insert_self _ _ _

/-- A key that is indexed at one set of histories is indexed alike at every other one that leads to
the same commitment after every block on the tip. -/
theorem index_of_commitments (hfree : R.CollisionFree) (hsigns : R.Signs chainId)
    {h h' : Histories} {op op' : OperatorKeyHistory} (hop : h.operator = some op)
    (hop' : h'.operator = some op') (hr : h.key.Rooted) (hf : h.key.FitsViews)
    (hentries : h.key.byStableId.Same h'.key.byStableId) {tip : BlockHash}
    (hsame : ∀ block : Block, block.header.parentHash = tip →
      validatorHistoryCommitmentV2 R (replayBlock R minVEffDelay chainId h block) =
        validatorHistoryCommitmentV2 R (replayBlock R minVEffDelay chainId h' block))
    (probe : Block) (hprobe : probe.header.parentHash = tip) (key id : NodeId)
    (hid : h.key.pubkeyToStableId.get? key = some id) :
    h'.key.pubkeyToStableId.get? key = some id := by
  by_contra hne
  obtain ⟨entries, hget, -⟩ := hr.indexed key id hid
  have hget' : h'.key.byStableId.get? id = some entries := (hentries id).symm.trans hget
  have hnil : entries ≠ [] := by
    rintro rfl
    cases hr.first id _ hget
  obtain ⟨last, hlast⟩ : ∃ last, entries.getLast? = some last :=
    Option.isSome_iff_exists.mp (by simpa using hnil)
  -- whatever single command the next block carries, the entries stay the same at both
  have hkeys : ∀ (view : ℕ) (bytes : Bytes),
      (rotationTag.isPrefixOf bytes = true ∨ rotationCancelTag.isPrefixOf bytes = true) →
      (cancelOrSkip R chainId view (applyRotationCommand R chainId view h bytes)
          bytes).key.byStableId.get? id =
        (cancelOrSkip R chainId view (applyRotationCommand R chainId view h' bytes)
          bytes).key.byStableId.get? id := by
    intro view bytes htag
    have hcommit := hsame
      { probe with header := { probe.header with view := view }, commands := [bytes] } hprobe
    unfold validatorHistoryCommitmentV2 at hcommit
    obtain ⟨-, hkey, -, -⟩ := hfree _ _ _ _ _ _ _ _ hcommit
    have hlookup := same_of_persistKeys hkey id
    rw [key_replayBlock_of_single hop rfl htag, key_replayBlock_of_single hop' rfl htag] at hlookup
    exact hlookup
  by_cases hmax : last.vEff < 2 ^ 64 - 1
  · obtain ⟨bytes, env, henv, hvalidator, hnew⟩ :=
      exists_rotation hsigns 0 hid hget hlast hmax
    have htag := tag_of_decodeTagged henv
    have hother := isPrefixOf_other rotationCancelTag (by rfl) (by decide) htag
    have hlookup := hkeys 0 bytes (.inl htag)
    rw [cancelOrSkip_of_other _ _ hother, cancelOrSkip_of_other _ _ hother, hnew,
      get?_applyRotationCommand_of_ne henv (hvalidator ▸ hne), hget'] at hlookup
    simpa using congrArg List.length (Option.some.inj hlookup)
  · obtain ⟨bytes, cancel, hcancel, hvalidator, hnew⟩ :=
      exists_cancel hsigns hr hf hid hget hlast (by omega)
    have htag := tag_of_decodeTagged hcancel
    have hother := isPrefixOf_other rotationTag (by rfl) (by decide) htag
    have hnone := fun key => acceptedRotation_of_other R chainId 0 key hother
    have hlookup := hkeys 0 bytes (.inr htag)
    rw [applyRotationCommand_of_none (hnone _), applyRotationCommand_of_none (hnone _), hnew,
      get?_cancelOrSkip_of_ne hcancel (hvalidator ▸ hne), hget'] at hlookup
    have hlength := congrArg List.length (Option.some.inj hlookup)
    have hpos := List.length_pos_iff.mpr hnil
    rw [List.length_dropLast] at hlength
    omega

theorem alike_of_commitments (hfree : R.CollisionFree) (hsigns : R.Signs chainId)
    {h h' : Histories} {op op' : OperatorKeyHistory} (hop : h.operator = some op)
    (hop' : h'.operator = some op') (hr : h.key.Rooted) (hr' : h'.key.Rooted)
    (hf : h.key.FitsViews) (hf' : h'.key.FitsViews) {tip : BlockHash}
    (hsame : ∀ block : Block, block.header.parentHash = tip →
      validatorHistoryCommitmentV2 R (replayBlock R minVEffDelay chainId h block) =
        validatorHistoryCommitmentV2 R (replayBlock R minVEffDelay chainId h' block))
    (probe : Block) (hprobe : probe.header.parentHash = tip) : h.Alike h' := by
  have hempty := hsame { probe with commands := [] } hprobe
  rw [replayBlock_of_no_commands R _ _ h rfl, replayBlock_of_no_commands R _ _ h' rfl] at hempty
  unfold validatorHistoryCommitmentV2 at hempty
  obtain ⟨hset, hkey, hbls, hoperator⟩ := hfree _ _ _ _ _ _ _ _ hempty
  have hentries := same_of_persistKeys hkey
  have hindex := index_of_commitments hfree hsigns hop hop' hr hf hentries hsame probe hprobe
  have hindex' := index_of_commitments hfree hsigns hop' hop hr' hf' hentries.symm
    (fun block hblock => (hsame block hblock).symm) probe hprobe
  constructor
  · exact ValidatorSetHistory.toPersisted_injective hset
  · exact ⟨hentries, fun key => Option.ext fun id => ⟨hindex key id, hindex' key id⟩⟩
  · cases hb : h.bls with
    | none =>
      cases hb' : h'.bls with
      | none => exact .none
      | some b' =>
        rw [hb, hb'] at hbls
        cases hbls
    | some b =>
      cases hb' : h'.bls with
      | none =>
        rw [hb, hb'] at hbls
        cases hbls
      | some b' =>
        rw [hb, hb'] at hbls
        exact .some (same_of_persistKeys (Option.some.inj hbls))
  · rw [hop, hop'] at hoperator ⊢
    exact .some (same_of_persistKeys hoperator)

end

section
variable {V : Verifier} {P : Primitives} {R : HistoryPrimitives} {cfg : NodeConfig}

theorem alike_of_stamped (hfree : R.CollisionFree) (hsigns : R.Signs (cfg.chainId P))
    {blocks blocks' : List Block} {n leader : ConsensusNode} {c c' : List KeyChange}
    (hn : Committed R (cfg.chainId P) cfg blocks n c)
    (hl : Committed R (cfg.chainId P) cfg blocks' leader c') {tip : BlockHash}
    (h : ∀ p : Proposal, p.block.header.parentHash = tip →
      n.historyVerdict V P R cfg (leader.stampProposal (V.overHistories R) cfg P p) = .ok ()) :
    n.histories.Alike leader.histories := by
  have hsame : ∀ block : Block, block.header.parentHash = tip →
      n.commitmentOf P R cfg block = leader.commitmentOf P R cfg block := by
    intro block hb
    have hp := h ⟨block, genesisQc P (cfg.genesis P) cfg.validatorSet⟩ hb
    rw [historyVerdict_stampProposal] at hp
    exact hp
  let probe : Block :=
    { cfg.genesis P with header := { (cfg.genesis P).header with parentHash := tip } }
  exact alike_of_commitments hfree hsigns rfl rfl hn.rooted hl.rooted (hn.fitsViews hsigns)
    (hl.fitsViews hsigns) hsame probe rfl

/-- Nodes that have committed different parts of a proposal's chain agree on it, whoever has
stamped it, exactly when all of them hold histories with the same lookups. -/
theorem sameVerdicts_iff (hfree : R.CollisionFree) (hsigns : R.Signs (cfg.chainId P))
    {ancestors : List Block} {i j k : ℕ} {n₁ n₂ leader : ConsensusNode}
    {c₁ c₂ c : List KeyChange} (h₁ : Committed R (cfg.chainId P) cfg (ancestors.take i) n₁ c₁)
    (h₂ : Committed R (cfg.chainId P) cfg (ancestors.take j) n₂ c₂)
    (hl : Committed R (cfg.chainId P) cfg (ancestors.take k) leader c) :
    SameVerdicts V P R cfg n₁ n₂ leader ((ancestors.getLastD (cfg.genesis P)).hash P) ↔
      n₁.histories.Alike n₂.histories ∧ n₁.histories.Alike leader.histories := by
  constructor
  · intro h
    have hleader := alike_of_stamped hfree hsigns h₁ hl fun p hp => (h.stamped p hp).1
    have hleader' := alike_of_stamped hfree hsigns h₂ hl fun p hp => (h.stamped p hp).2
    exact ⟨hleader.trans hleader'.symm, hleader⟩
  · rintro ⟨h, hleader⟩
    exact sameVerdicts_of_alike h hleader

/-- A committed block without commands leaves the histories as they are. -/
theorem histories_commit_of_no_commands {chainId : ChainId} {minVEffDelay : ℕ}
    {n n' : ConsensusNode} {storage storage' : Storage} {block : Block}
    (h : n.applyCommittedHistories R chainId minVEffDelay storage block = some (storage', n'))
    (hc : block.commands = []) : n'.histories = n.histories := by
  have hsame : (n.applyReconfigs R.toReconfigPrimitives minVEffDelay chainId block).1 = n := by
    unfold applyReconfigs
    rw [hc]
    rfl
  have hrotated : n'.histories = applyRotationCommandsToHistories R chainId block
      (n.applyReconfigs R.toReconfigPrimitives minVEffDelay chainId block).1.histories :=
    (committedRotations_of_some h).histories
  rw [hrotated, hsame]
  have hreplay := replayBlock_of_no_commands R minVEffDelay chainId n.histories hc
  unfold replayBlock applyReconfigCommandsToSetHistory at hreplay
  rw [hc] at hreplay
  exact hreplay

end

namespace Sample

def rotationOf (r : ℕ × ℕ × ℕ) : DualSignedRotation :=
  ⟨⟨r.1, r.2.1, r.2.2 % 2 ^ 64, some 0, some ⟨0, 0⟩⟩, 0, 0⟩

def cancelOf (c : ℕ × ℕ) : DualSignedRotationCancel := ⟨⟨c.1, c.2⟩, 0, 0⟩

/-- Rotations and cancels of any validator and at any view, in unary. -/
def signing : HistoryPrimitives :=
  { allChanges with
    decodeRotation := fun body =>
      (Encodable.decode body.length : Option (ℕ × ℕ × ℕ)).map rotationOf
    decodeCancel := fun body => (Encodable.decode body.length : Option (ℕ × ℕ)).map cancelOf }

theorem decodeTagged_unary {α β : Type} [Encodable α] (tag : Bytes) (f : α → β) (a : α) :
    decodeTagged tag (fun body => (Encodable.decode body.length : Option α).map f)
      (tag ++ List.replicate (Encodable.encode a) 0) = some (f a) := by
  unfold decodeTagged
  rw [if_pos (List.isPrefixOf_iff_prefix.mpr (List.prefix_append ..)), List.drop_left]
  simp only [List.length_replicate, Encodable.encodek, Option.map_some]

theorem signs_signing (chainId : ChainId) : signing.Signs chainId := by
  constructor
  · intro body env h
    have h : (Encodable.decode body.length : Option (ℕ × ℕ × ℕ)).map rotationOf = some env := h
    obtain ⟨r, -, rfl⟩ := Option.map_eq_some_iff.mp h
    exact Nat.mod_lt _ (by norm_num)
  · intro body env h
    cases h
  · intro validator currentKey taken
    have hfresh : taken.sum + 1 ∉ taken := fun h =>
      absurd (List.le_sum_of_mem h) (Nat.not_succ_le_self _)
    exact ⟨_, rotationOf (validator, taken.sum + 1, 2 ^ 64 - 1),
      decodeTagged_unary rotationTag rotationOf _, rfl, hfresh, by simp [rotationOf], rfl, rfl⟩
  · intro validator currentKey newKey vEff _
    exact ⟨_, cancelOf (validator, vEff), decodeTagged_unary rotationCancelTag cancelOf _, rfl,
      rfl⟩

def plain : Block := blockOn root 10 0 []

/-- A block without commands that only one of two nodes has committed. -/
theorem plain_sameVerdicts : ∃ n ∈ recover timed config .empty,
    ∃ r ∈ n.applyCommittedHistories signing chainId config.minVEffDelay .empty plain,
      SameVerdicts verifier timed signing config n r.2 n (plain.hash timed) := by
  obtain ⟨n, hn, hsome⟩ : ∃ n ∈ recover timed config .empty,
      (n.applyCommittedHistories signing chainId config.minVEffDelay .empty plain).isSome := by
    decide +kernel
  obtain ⟨r, hr⟩ := Option.isSome_iff_exists.mp hsome
  have hboot : Committed signing chainId config [] n [] :=
    committed_boot (Option.mem_def.mp hn) rfl rfl rfl rfl
  have hcommit : Committed signing chainId config ([plain].take 1) r.2 _ := .commit hboot hr
  have hfree : signing.CollisionFree := collisionFree_allChanges
  have hsame : n.histories.Alike r.2.histories := by
    rw [histories_commit_of_no_commands hr rfl]
    exact .refl _
  exact ⟨n, hn, r, hr, (sameVerdicts_iff (i := 0) (j := 1) (k := 0) hfree
    (signs_signing chainId) hboot hcommit hboot).mpr ⟨hsame, .refl _⟩⟩

/-- A proposal without commands on the block that rotates a key. -/
def following : Proposal := ⟨blockOn rotating 11 0 [], certificate rotating⟩

/-- What a leader stamps that has not committed the rotation is refused by a node that has. -/
theorem verdicts_differ : ∃ n ∈ recover timed config .empty, ∃ r ∈ committing rotating,
    Committed allChanges chainId config [] n [] ∧
    Committed allChanges chainId config [rotating] r.1 r.2 ∧
    ¬ SameVerdicts verifier timed allChanges config n r.1 n (rotating.hash timed) := by
  obtain ⟨n, hn, r, hr, hrefused⟩ : ∃ n ∈ recover timed config .empty, ∃ r ∈ committing rotating,
      (r.1.historyVerdict verifier timed allChanges config
        (n.stampProposal (verifier.overHistories allChanges) config timed following)).isOk =
          false := by
    decide +kernel
  refine ⟨n, hn, r, hr, committed_boot (Option.mem_def.mp hn) rfl rfl rfl rfl,
    committed_committing (Option.mem_def.mp hr), ?_⟩
  intro h
  rw [(h.stamped following rfl).2] at hrefused
  cases hrefused

end Sample

end Boule
