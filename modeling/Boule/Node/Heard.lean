import Boule.Dispatch.Ingress
import Boule.Node.Assigned

/-! The chain of committed blocks, the changes of keys that its commands make, and which members of
a set the node hears. -/
namespace Boule
open ConsensusNode

/-! ### The changes of a block -/

/-- The changes that a loop over commands accepts, each command on the histories that it meets. -/
def changesBy (change : Histories → Bytes → Option KeyChange)
    (step : Histories → Bytes → Histories) : Histories → List Bytes → List KeyChange
  | _, [] => []
  | h, bytes :: commands =>
    (change h bytes).toList ++ changesBy change step (step h bytes) commands

section
variable (R : HistoryPrimitives) (chainId : ChainId) (commitView : ℕ)

def acceptedRotate (h : Histories) (bytes : Bytes) : Option KeyChange := do
  let (rotation, stable, _) ← acceptedRotation R chainId commitView h.key bytes
  return .rotate (← stable) rotation

/-- A cancel, if it is one and applies. -/
def acceptedWithdraw (h : Histories) (bytes : Bytes) : Option KeyChange := do
  let _ ← (applyRotationCancelCommand R chainId commitView h bytes).toOption
  let cancel ← decodeTagged rotationCancelTag R.decodeCancel bytes
  return .withdraw (← h.key.validatorFor cancel.payload.validator) cancel.payload.cancellingVEff

def acceptedOperatorRotate (operator : OperatorKeyHistory) (h : Histories) (bytes : Bytes) :
    Option KeyChange := do
  let _ ← (applyOperatorRotationCommand R chainId commitView operator h bytes).toOption
  let env ← decodeTagged operatorRotationTag R.decodeOperatorRotation bytes
  return .rotate (← h.key.validatorFor env.payload.validator) env.payload

end

/-- The changes of keys that a block makes when the node commits it. -/
def ConsensusNode.keyChanges (R : HistoryPrimitives) (chainId : ChainId) (minVEffDelay : ℕ)
    (n : ConsensusNode) (block : Block) : List KeyChange :=
  let view := block.header.view
  let n' := (n.applyReconfigs R.toReconfigPrimitives minVEffDelay chainId block).1
  let rotated := block.commands.foldl (applyRotationCommand R chainId view) n'.histories
  let cancelled := cancelRotations R chainId block rotated
  ((blockChange R.toReconfigPrimitives minVEffDelay chainId n.validatorHistory
      block).toList.map fun change => .seat change.1 change.2) ++
    (changesBy (acceptedRotate R chainId view) (applyRotationCommand R chainId view) n'.histories
        block.commands ++
      (changesBy (acceptedWithdraw R chainId view) (cancelOrSkip R chainId view) rotated
          block.commands ++
        changesBy (acceptedOperatorRotate R chainId view n'.operatorKeyHistory)
          (operatorRotateOrSkip R chainId view n'.operatorKeyHistory) cancelled block.commands))

namespace Assigned

/-- Every change is one that a node can record, at the keys that it meets. -/
abbrev Heeded (a : Assigned) (changes : List KeyChange) : Prop :=
  Along Assigned.apply Assigned.Heeds a changes

/-- The keys after the changes. -/
abbrev after (a : Assigned) (changes : List KeyChange) : Assigned := run Assigned.apply a changes

end Assigned

theorem registered_changesBy {change : Histories → Bytes → Option KeyChange}
    {step : Histories → Bytes → Histories}
    (hstep : ∀ {h a} bytes, a.Heeded (change h bytes).toList → Registered h a →
      Registered (step h bytes) (a.after (change h bytes).toList))
    {h : Histories} {a : Assigned} {commands : List Bytes}
    (hh : a.Heeded (changesBy change step h commands)) (hreg : Registered h a) :
    Registered (commands.foldl step h) (a.after (changesBy change step h commands)) := by
  induction commands generalizing h a with
  | nil => exact hreg
  | cons bytes commands ih =>
    obtain ⟨hfirst, hrest⟩ := hh.append
    rw [List.foldl_cons, changesBy, Assigned.after, run_append]
    exact ih hrest (hstep bytes hfirst hreg)

section
variable {R : HistoryPrimitives} {chainId : ChainId} {commitView minVEffDelay : ℕ} {a : Assigned}

theorem registered_acceptedRotate {h : Histories} (bytes : Bytes)
    (hh : a.Heeded (acceptedRotate R chainId commitView h bytes).toList) (hreg : Registered h a) :
    Registered (applyRotationCommand R chainId commitView h bytes)
      (a.after (acceptedRotate R chainId commitView h bytes).toList) := by
  unfold acceptedRotate at hh ⊢
  cases ha : acceptedRotation R chainId commitView h.key bytes with
  | none =>
    rw [applyRotationCommand_of_none ha]
    exact hreg
  | some accepted =>
    obtain ⟨rotation, stable, key⟩ := accepted
    obtain ⟨id, rfl, hr⟩ := rotates_of_acceptedRotation ha
    rw [ha] at hh
    rw [applyRotationCommand_of_some ha]
    exact registered_rotate hr hh.1 hreg

variable (R chainId commitView) in
/-- A cancel is passed over, or it withdraws a key of a known validator. -/
theorem acceptedWithdraw_cases (h : Histories) (bytes : Bytes) :
    acceptedWithdraw R chainId commitView h bytes = none ∧
        cancelOrSkip R chainId commitView h bytes = h ∨
      ∃ cancel id, decodeTagged rotationCancelTag R.decodeCancel bytes = some cancel ∧
        h.key.validatorFor cancel.payload.validator = some id ∧
        acceptedWithdraw R chainId commitView h bytes =
          some (.withdraw id cancel.payload.cancellingVEff) ∧
        applyRotationCancelCommand R chainId commitView h bytes =
          .ok (cancelOrSkip R chainId commitView h bytes, true) := by
  unfold acceptedWithdraw cancelOrSkip
  cases hc : applyRotationCancelCommand R chainId commitView h bytes with
  | error e => exact .inl ⟨rfl, rfl⟩
  | ok r =>
    obtain ⟨h', applied⟩ := r
    cases applied with
    | true =>
      rcases applyRotationCancelCommand_eq_ok.mp hc with
        ⟨-, -, happlied⟩ | ⟨cancel, _, stable, _, _, hcancel, -, hstable, -⟩
      · cases happlied
      · refine .inr ⟨cancel, stable, hcancel, hstable, ?_, rfl⟩
        simp only [Except.toOption, Option.bind_eq_bind, Option.bind_some, hcancel, hstable]
        rfl
    | false =>
      rcases applyRotationCancelCommand_eq_ok.mp hc with
        ⟨htag, rfl, -⟩ | ⟨_, _, _, _, _, -, -, -, -, -, -, -, happlied⟩
      · rw [decodeTagged_of_other R.decodeCancel htag]
        exact .inl ⟨rfl, rfl⟩
      · cases happlied

theorem registered_acceptedWithdraw {h : Histories} (bytes : Bytes)
    (hh : a.Heeded (acceptedWithdraw R chainId commitView h bytes).toList)
    (hreg : Registered h a) :
    Registered (cancelOrSkip R chainId commitView h bytes)
      (a.after (acceptedWithdraw R chainId commitView h bytes).toList) := by
  rcases acceptedWithdraw_cases R chainId commitView h bytes with
    ⟨hnone, hsame⟩ | ⟨cancel, id, hcancel, hid, hsome, hc⟩
  · rw [hnone, hsame]
    exact hreg
  · rw [hsome] at hh ⊢
    obtain ⟨cancel', id', hcancel', hid', hkeep⟩ := registered_withdraw (a := a) hc
    obtain rfl := Option.some.inj (hcancel.symm.trans hcancel')
    obtain rfl := Option.some.inj (hid.symm.trans hid')
    exact hkeep hh.1 hreg

/-- An operator's rotation that applies moves the two key histories together. -/
theorem rotates_of_applyOperatorRotation {operator : OperatorKeyHistory} {h h' : Histories}
    {bytes : Bytes}
    (hc : applyOperatorRotationCommand R chainId commitView operator h bytes = .ok (h', true)) :
    ∃ env id key, decodeTagged operatorRotationTag R.decodeOperatorRotation bytes = some env ∧
      Rotates commitView h.key env.payload id key ∧
      h' = { h with key := key, bls := rotateBls h.bls id env.payload } := by
  rcases applyOperatorRotationCommand_eq_ok.mp hc with
    ⟨-, -, happlied⟩ | ⟨env, stable, _, key, henv, hstable, -, -, hscheme, hkey, rfl, -⟩
  · cases happlied
  · obtain ⟨id, hr⟩ := rotates_of_applied hkey hscheme
    obtain rfl := Option.some.inj (hstable.symm.trans hr.stable)
    exact ⟨env, stable, key, henv, hr, rfl⟩

variable (R chainId commitView) in
/-- An operator's rotation is passed over, or it moves the two key histories together. -/
theorem acceptedOperatorRotate_cases (operator : OperatorKeyHistory) (h : Histories)
    (bytes : Bytes) :
    acceptedOperatorRotate R chainId commitView operator h bytes = none ∧
        operatorRotateOrSkip R chainId commitView operator h bytes = h ∨
      ∃ env id key, decodeTagged operatorRotationTag R.decodeOperatorRotation bytes = some env ∧
        Rotates commitView h.key env.payload id key ∧
        acceptedOperatorRotate R chainId commitView operator h bytes =
          some (.rotate id env.payload) ∧
        operatorRotateOrSkip R chainId commitView operator h bytes =
          { h with key := key, bls := rotateBls h.bls id env.payload } := by
  unfold acceptedOperatorRotate operatorRotateOrSkip
  cases hc : applyOperatorRotationCommand R chainId commitView operator h bytes with
  | error e => exact .inl ⟨rfl, rfl⟩
  | ok r =>
    obtain ⟨h', applied⟩ := r
    cases applied with
    | true =>
      obtain ⟨env, id, key, henv, hr, rfl⟩ := rotates_of_applyOperatorRotation hc
      refine .inr ⟨env, id, key, henv, hr, ?_, rfl⟩
      rw [henv]
      simp only [Except.toOption, Option.bind_eq_bind, Option.bind_some, hr.stable]
      rfl
    | false =>
      rcases applyOperatorRotationCommand_eq_ok.mp hc with
        ⟨htag, rfl, -⟩ | ⟨_, _, _, _, -, -, -, -, -, -, -, happlied⟩
      · rw [decodeTagged_of_other R.decodeOperatorRotation htag]
        exact .inl ⟨rfl, rfl⟩
      · cases happlied

theorem registered_acceptedOperatorRotate {operator : OperatorKeyHistory} {h : Histories}
    (bytes : Bytes)
    (hh : a.Heeded (acceptedOperatorRotate R chainId commitView operator h bytes).toList)
    (hreg : Registered h a) :
    Registered (operatorRotateOrSkip R chainId commitView operator h bytes)
      (a.after (acceptedOperatorRotate R chainId commitView operator h bytes).toList) := by
  rcases acceptedOperatorRotate_cases R chainId commitView operator h bytes with
    ⟨hnone, hsame⟩ | ⟨env, id, key, -, hr, hsome, hstep⟩
  · rw [hnone, hsame]
    exact hreg
  · rw [hsome] at hh ⊢
    rw [hstep]
    exact registered_rotate hr hh.1 hreg

/-- A committed block takes a record of the keys to a record of the keys after its changes. -/
theorem registered_commit {n n' : ConsensusNode} {storage storage' : Storage} {block : Block}
    (hcommit : n.applyCommittedHistories R chainId minVEffDelay storage block =
      some (storage', n'))
    (hsync : n.core.state.validatorHistory = n.validatorHistory)
    (hh : a.Heeded (n.keyChanges R chainId minVEffDelay block))
    (hreg : Registered n.histories a) :
    Registered n'.histories (a.after (n.keyChanges R chainId minVEffDelay block)) := by
  unfold keyChanges at hh ⊢
  simp only at hh ⊢
  obtain ⟨hseat, hh⟩ := hh.append
  obtain ⟨hrotate, hh⟩ := hh.append
  obtain ⟨hcancel, hoperator⟩ := hh.append
  rw [Assigned.after, run_append, run_append, run_append]
  have hn₁ : Registered
      (n.applyReconfigs R.toReconfigPrimitives minVEffDelay chainId block).1.histories
      (a.after ((blockChange R.toReconfigPrimitives minVEffDelay chainId n.validatorHistory
        block).toList.map fun change => .seat change.1 change.2)) := by
    rw [applyReconfigs_eq]
    cases hc : blockChange R.toReconfigPrimitives minVEffDelay chainId n.validatorHistory
      block with
    | none => exact hreg
    | some change =>
      rw [hc] at hseat
      exact registered_seat hsync (last_lt_of_blockChange hc) hseat.1 hreg
  have hrotated := registered_changesBy registered_acceptedRotate hrotate hn₁
  have hcancelled := registered_changesBy registered_acceptedWithdraw hcancel hrotated
  have hoperated := registered_changesBy registered_acceptedOperatorRotate hoperator hcancelled
  rw [(committedRotations_of_some hcommit).histories,
    applyRotationCommandsToHistories_eq R chainId block _ _ rfl]
  exact ⟨hoperated.signing, hoperated.owner, hoperated.bls, hoperated.inStep⟩

/-- The two set histories of a node stay alike. -/
theorem core_sync_commit {n n' : ConsensusNode} {storage storage' : Storage} {block : Block}
    (hcommit : n.applyCommittedHistories R chainId minVEffDelay storage block =
      some (storage', n'))
    (hsync : n.core.state.validatorHistory = n.validatorHistory) :
    n'.core.state.validatorHistory = n'.validatorHistory := by
  have hc := commitHistory_applyCommittedReconfigs R.toReconfigPrimitives minVEffDelay chainId
    storage n block
  have hr := committedRotations_of_some hcommit
  have hcore : n'.core.state.validatorHistory =
      (n.applyCommittedReconfigs R.toReconfigPrimitives minVEffDelay chainId storage
        block).2.core.state.validatorHistory := by
    rw [hr.node]
    rfl
  have hnode : n'.validatorHistory = (n.applyCommittedReconfigs R.toReconfigPrimitives
      minVEffDelay chainId storage block).2.validatorHistory := by
    rw [hr.node]
    rfl
  rw [hcore, hnode, hc.core, hc.node, hsync]
  rfl

end

/-! ### Genesis -/

def NodeConfig.genesisHistories (cfg : NodeConfig) : Histories where
  set := .fromGenesis cfg.validatorSet
  key := .fromSetHistory (.fromGenesis cfg.validatorSet)
  bls := some (.withGenesis cfg.genesisBls)
  operator := some (.withGenesis cfg.operatorKeys)

/-- Members are registered with their ids as keys. -/
theorem get?_register_members (members : List ValidatorId) (t : Table NodeId (List KeyEntry))
    (id : NodeId) :
    ((members.map fun m => (0, m)).foldl (fun t s => register t s.2 s.1 s.2) t).get? id =
      (t.get? id).or (if id ∈ members then some [⟨0, id⟩] else none) := by
  induction members generalizing t with
  | nil => simp
  | cons m members ih =>
    rw [List.map_cons, List.foldl_cons, ih, register]
    by_cases hid : id = m
    · obtain rfl := hid
      rw [if_pos (List.mem_cons_self ..)]
      by_cases hc : t.containsKey id = true
      · obtain ⟨entries, he⟩ := (Table.containsKey_iff t id).mp hc
        rw [if_pos hc, he]
        rfl
      · have he := (Table.containsKey_eq_false_iff t id).mp (by simpa using hc)
        rw [if_neg hc, he, Table.get?_insert_self]
        rfl
    · have hmem : id ∈ m :: members ↔ id ∈ members := by simp [hid]
      simp only [hmem]
      split_ifs
      · rfl
      · rfl
      · rw [Table.get?_insert_of_ne _ hid]
      · rw [Table.get?_insert_of_ne _ hid]

theorem get?_index_members (members : List ValidatorId) (t : Table NodeId NodeId)
    {id : NodeId} (hid : id ∈ members ∨ t.get? id = some id) :
    ((members.map fun m => (0, m)).foldl (fun t s => t.insert s.2 s.2) t).get? id = some id := by
  induction members generalizing t with
  | nil => exact hid.resolve_left List.not_mem_nil
  | cons m members ih =>
    rw [List.map_cons, List.foldl_cons]
    apply ih
    by_cases hm : id = m
    · right
      rw [hm, Table.get?_insert_self]
    · rw [Table.get?_insert_of_ne _ hm]
      rcases hid with hid | hid
      · exact .inl ((List.mem_cons.mp hid).resolve_left hm)
      · exact .inr hid

theorem get?_withGenesis (genesis : List (NodeId × BlsPublicKey)) (id : NodeId) :
    (BlsKeyHistory.withGenesis genesis).byStableId.get? id =
      (genesis.reverse.lookup id).map fun key => [⟨0, key⟩] := by
  unfold BlsKeyHistory.withGenesis
  simp only
  induction genesis using List.reverseRecOn with
  | nil => rfl
  | append_singleton genesis e ih =>
    obtain ⟨id', key⟩ := e
    rw [List.foldl_append, List.foldl_cons, List.foldl_nil, List.reverse_append,
      List.reverse_singleton, List.singleton_append, Table.get?_insert, List.lookup_cons]
    by_cases hid : id = id'
    · rw [if_pos hid, hid, beq_self_eq_true]
      rfl
    · rw [if_neg hid, beq_false_of_ne hid]
      exact ih

theorem Assigned.inStep_genesis (cfg : NodeConfig) (id : NodeId) :
    (Assigned.genesis cfg).InStep id := by
  have hsigning : (Assigned.genesis cfg).signing id = [⟨0, id⟩] ∨
      (Assigned.genesis cfg).signing id = [] := by
    simp only [genesis]
    split_ifs <;> simp
  have hbls : (∃ key, (Assigned.genesis cfg).bls id = [⟨0, key⟩]) ∨
      (Assigned.genesis cfg).bls id = [] := by
    simp only [genesis]
    cases cfg.genesisBls.reverse.lookup id <;> simp
  constructor
  · rcases hsigning with h | h <;> simp [h]
  · rcases hbls with ⟨key, h⟩ | h <;> simp [h]
  · rcases hsigning with h | h <;> simp [h]
  · rcases hsigning with h | h <;> rcases hbls with ⟨key, h'⟩ | h' <;> simp [h, h']

/-- The seats of the genesis set. -/
theorem seats_fromGenesis (vs : ValidatorSet) : (ValidatorSetHistory.fromGenesis vs).iter.flatMap
    (fun b => b.2.members.map fun m => (b.1, m)) = vs.members.map fun m => (0, m) := by
  simp [ValidatorSetHistory.iter, ValidatorSetHistory.fromGenesis]

theorem registered_genesis (cfg : NodeConfig) :
    Registered cfg.genesisHistories (Assigned.genesis cfg) := by
  have hseats := seats_fromGenesis cfg.validatorSet
  constructor
  · intro id
    simp only [NodeConfig.genesisHistories, ValidatorKeyHistory.fromSetHistory, hseats]
    rw [get?_register_members]
    simp only [Assigned.genesis, Table.get?_empty]
    split_ifs <;> simp_all
  · intro id e he
    simp only [Assigned.genesis] at he
    split_ifs at he with hid
    · obtain rfl := List.mem_singleton.mp he
      simp only [NodeConfig.genesisHistories, ValidatorKeyHistory.fromSetHistory, hseats]
      exact get?_index_members _ _ (.inl hid)
    · cases he
  · refine ⟨_, rfl, ?_⟩
    intro id
    rw [get?_withGenesis]
    apply eq_ite_getD
    cases cfg.genesisBls.reverse.lookup id <;> simp
  · exact Assigned.inStep_genesis cfg

/-! ### Chains of committed blocks -/

/-- A node that started from genesis has committed these blocks, with these changes of keys. What
it does between two commits changes no history. -/
inductive Committed (R : HistoryPrimitives) (chainId : ChainId) (cfg : NodeConfig) :
    List Block → ConsensusNode → List KeyChange → Prop
  | genesis {n : ConsensusNode} (histories : n.histories = cfg.genesisHistories)
    (sync : n.core.state.validatorHistory = n.validatorHistory) :
    Committed R chainId cfg [] n []
  | commit {blocks : List Block} {n n' : ConsensusNode} {changes : List KeyChange}
    {storage storage' : Storage} {block : Block} (before : Committed R chainId cfg blocks n changes)
    (applied : n.applyCommittedHistories R chainId cfg.minVEffDelay storage block =
      some (storage', n')) :
    Committed R chainId cfg (blocks ++ [block]) n'
      (changes ++ n.keyChanges R chainId cfg.minVEffDelay block)
  | other {blocks : List Block} {n n' : ConsensusNode} {changes : List KeyChange}
    (before : Committed R chainId cfg blocks n changes) (histories : n'.histories = n.histories)
    (core : n'.core.state.validatorHistory = n.core.state.validatorHistory) :
    Committed R chainId cfg blocks n' changes

section
variable {R : HistoryPrimitives} {chainId : ChainId} {cfg : NodeConfig} {blocks : List Block}
  {n : ConsensusNode} {changes : List KeyChange}

theorem Committed.sync (h : Committed R chainId cfg blocks n changes) :
    n.core.state.validatorHistory = n.validatorHistory := by
  induction h with
  | genesis histories sync => exact sync
  | commit before applied ih => exact core_sync_commit applied ih
  | other before histories core ih =>
    rw [core, ih]
    exact (congrArg Histories.set histories).symm

/-- Along a chain whose changes are all heeded, the node records the keys that were given. -/
theorem Committed.registered (h : Committed R chainId cfg blocks n changes)
    (hh : (Assigned.genesis cfg).Heeded changes) :
    Registered n.histories ((Assigned.genesis cfg).after changes) := by
  induction h with
  | genesis histories sync =>
    rw [histories]
    exact registered_genesis cfg
  | commit before applied ih =>
    obtain ⟨hbefore, hblock⟩ := hh.append
    rw [Assigned.after, run_append]
    exact registered_commit applied before.sync hblock (ih hbefore)
  | other before histories core ih =>
    rw [histories]
    exact ih hh

/-- A node that boots from an empty store starts a chain. -/
theorem committed_boot {P : Primitives} {storage : Storage}
    (h : recover P cfg storage = some n) (hset : storage.validatorHistory = none)
    (hkey : storage.validatorKeyHistory = none) (hbls : storage.blsKeyHistory = none)
    (hoperator : storage.operatorKeyHistory = none) : Committed R chainId cfg [] n [] := by
  have hload : storedHistory cfg storage.validatorHistory =
      some (.fromGenesis cfg.validatorSet) := by
    rw [hset]
    rfl
  obtain ⟨hn, hcore⟩ := recover_history h hload ⟨[], rfl⟩
  refine .genesis ?_ (hcore.trans hn.symm)
  simp only [recover, Option.bind_eq_bind, hset, hkey, hbls, hoperator, loadOr,
    Option.bind_some] at h
  split_ifs at h
  · simp at h
  · obtain rfl := Option.some.inj h
    rfl

/-! ### Who is heard -/

/-- The context in which a node checks its messages. -/
def ConsensusNode.ingressContext (n : ConsensusNode) (cfg : NodeConfig) (chainId : ChainId) :
    IngressContext where
  history := n.validatorHistory
  keyHistory := n.validatorKeyHistory
  qcVerification := ⟨n.blsKeyHistory, some n.operatorKeyHistory, cfg.minVEffDelay,
    n.core.state.genesisHash⟩
  chainId := chainId

/-- A vote of the view that is signed with the key, and a partial signature under the BLS key. -/
structure VotesWith (V : Verifier) (chainId : ChainId) (view key : ℕ) (pk : BlsPublicKey)
    (signed : Signed Vote) (partialSig : BlsPartialSig) : Prop where
  signer : signed.signer = key
  inView : signed.payload.view = view
  signature : V.ed25519 key (preimage (.vote signed.payload) chainId) signed.sig = true
  partialSig : V.blsPartial pk (votePreimage view signed.payload.blockHash chainId) partialSig =
    true

/-- Every such vote is let in as a vote of the validator. -/
def ConsensusNode.HearsVotes (n : ConsensusNode) (cfg : NodeConfig) (chainId : ChainId)
    (id : ValidatorId) (view key : ℕ) (pk : BlsPublicKey) : Prop :=
  ∀ (V : Verifier) (signed : Signed Vote) (partialSig : BlsPartialSig),
    VotesWith V chainId view key pk signed partialSig →
    ingressVote V (n.ingressContext cfg chainId) signed (some partialSig) =
      .ok [.safety (.voteReceived ⟨⟨signed, id⟩, partialSig⟩)]

/-- Votes are let in when the BLS history has the key under the signing key. -/
theorem hearsVotes_iff {a : Assigned} (hreg : Registered n.histories a) {id : ValidatorId}
    {view key : ℕ}
    (hs : verifySignerAt key view n.validatorHistory n.validatorKeyHistory = .ok id)
    (pk : BlsPublicKey) :
    n.HearsVotes cfg chainId id view key pk ↔ a.bls.activeAt key view = some pk := by
  obtain ⟨bls, hb, htable⟩ := hreg.bls
  have hb : n.blsKeyHistory = some bls := hb
  have hkeyAt : bls.keyAt key view = a.bls.activeAt key view :=
    keyAt_of_tabulates htable (hreg.inStep key).bls view
  have hverify : ∀ (V : Verifier) (signed : Signed Vote) (partialSig : BlsPartialSig),
      signed.signer = key → signed.payload.view = view →
      (verifyBlsPartialIfRequired V signed (some partialSig)
          (n.ingressContext cfg chainId).qcVerification chainId = .ok () ↔
        ∃ pk, a.bls.activeAt key view = some pk ∧
          V.blsPartial pk (votePreimage view signed.payload.blockHash chainId) partialSig =
            true) := by
    intro V signed partialSig hsigner hview
    subst hsigner hview
    unfold verifyBlsPartialIfRequired ingressContext
    rw [hb, ← hkeyAt]
    constructor
    · intro h
      obtain ⟨_, hpartial, h⟩ := bind_eq_ok.mp h
      obtain rfl := Except.ok.inj hpartial
      obtain ⟨_, hhistory, h⟩ := bind_eq_ok.mp h
      obtain rfl := Except.ok.inj hhistory
      obtain ⟨pk, hpk, h⟩ := bind_eq_ok.mp h
      exact ⟨pk, okOr_eq_ok.mp hpk, require_eq_ok.mp h⟩
    · rintro ⟨pk, hpk, h⟩
      exact bind_eq_ok.mpr ⟨partialSig, rfl, bind_eq_ok.mpr ⟨bls, rfl,
        bind_eq_ok.mpr ⟨pk, okOr_eq_ok.mpr hpk, require_eq_ok.mpr h⟩⟩⟩
  constructor
  · intro h
    -- a verifier for which only this key has partial signatures
    have hin := h ⟨fun _ _ _ => true, fun pk' _ _ => pk' = pk, fun _ _ _ => true,
      fun _ _ _ _ _ _ _ => 0⟩ ⟨⟨view, 0⟩, key, 0⟩ 0 ⟨rfl, rfl, rfl, by simp⟩
    obtain ⟨_, -, hin⟩ := bind_eq_ok.mp hin
    obtain ⟨_, -, hin⟩ := bind_eq_ok.mp hin
    obtain ⟨_, hpartial, -⟩ := bind_eq_ok.mp hin
    obtain ⟨pk', hpk', hsame⟩ := (hverify _ _ _ rfl rfl).mp hpartial
    rw [hpk', of_decide_eq_true hsame]
  · intro hpk V signed partialSig hv
    obtain ⟨hsigner, hview, hsig, hpartial⟩ := hv
    have hbls := (hverify V signed partialSig hsigner hview).mpr ⟨pk, hpk, hpartial⟩
    unfold ingressVote
    refine bind_eq_ok.mpr ⟨id, ?_, bind_eq_ok.mpr ⟨(), ?_, bind_eq_ok.mpr ⟨(), hbls, rfl⟩⟩⟩
    · rw [hsigner, hview]
      exact hs
    · unfold verifySig
      rw [require_eq_ok, hsigner]
      exact hsig

/-- Along a chain whose changes are all heeded, the key that a member of a set is given signs its
proposals and votes for it, and its votes are let in exactly when its signing key has its BLS
key. -/
theorem seated_heard (h : Committed R chainId cfg blocks n changes)
    (hh : (Assigned.genesis cfg).Heeded changes) {id : ValidatorId} {view key : ℕ}
    (hm : (n.validatorHistory.setAt view).contains id = true)
    (hk : ((Assigned.genesis cfg).after changes).signing.activeAt id view = some key) :
    verifySignerAt key view n.validatorHistory n.validatorKeyHistory = .ok id ∧
      ∀ pk, ((Assigned.genesis cfg).after changes).bls.activeAt id view = some pk →
        (n.HearsVotes cfg chainId id view key pk ↔
          ((Assigned.genesis cfg).after changes).bls.activeAt key view = some pk) := by
  have hreg := h.registered hh
  obtain ⟨e, he, hkey⟩ := mem_of_activeAt hk
  have howner : n.validatorKeyHistory.validatorFor key = some id := by
    rw [← hkey]
    exact hreg.owner id e he
  have hactive : n.validatorKeyHistory.keyAt id view = some key :=
    (keyAt_of_tabulates hreg.signing (hreg.inStep id).signing view).trans hk
  have hs : verifySignerAt key view n.validatorHistory n.validatorKeyHistory = .ok id :=
    bind_eq_ok.mpr ⟨id, okOr_eq_ok.mpr howner, bind_eq_ok.mpr ⟨(), require_eq_ok.mpr hm,
      bind_eq_ok.mpr ⟨key, okOr_eq_ok.mpr hactive,
        bind_eq_ok.mpr ⟨(), require_eq_ok.mpr (decide_eq_true rfl), rfl⟩⟩⟩⟩
  exact ⟨hs, fun pk _ => hearsVotes_iff hreg hs pk⟩

end

namespace Sample

/-- Validator 4 takes the signing key 40 and the BLS key 44 from view 16 on. -/
def rotate₄ : Bytes := rotationTag ++ [4, 40, 44, 16]

def rotating : Block := blockOn root 10 0 [rotate₄]

def chainId : ChainId := config.chainId timed

/-- The node after it has booted and committed the block, with the changes of keys. -/
def committing (b : Block) : Option (ConsensusNode × List KeyChange) := do
  let n ← recover timed config .empty
  let r ← n.applyCommittedHistories allChanges chainId config.minVEffDelay .empty b
  return (r.2, n.keyChanges allChanges chainId config.minVEffDelay b)

def given (changes : List KeyChange) : Assigned := (Assigned.genesis config).after changes

theorem committed_committing {b : Block} {r : ConsensusNode × List KeyChange}
    (h : committing b = some r) : Committed allChanges chainId config [b] r.1 r.2 := by
  unfold committing at h
  simp only [Option.bind_eq_bind] at h
  obtain ⟨n, hn, h⟩ := Option.bind_eq_some_iff.mp h
  obtain ⟨r', hr', h⟩ := Option.bind_eq_some_iff.mp h
  obtain rfl := Option.some.inj h
  exact .commit (committed_boot hn rfl rfl rfl rfl) hr'

/-- The validator that rotates is heard before and, as a proposer, after. -/
theorem heard_across_rotation : ∃ r ∈ committing rotating,
    verifySignerAt 4 15 r.1.validatorHistory r.1.validatorKeyHistory = .ok 4 ∧
    r.1.HearsVotes config chainId 4 15 4 14 ∧
    verifySignerAt 40 16 r.1.validatorHistory r.1.validatorKeyHistory = .ok 4 := by
  obtain ⟨r, hr, hh, hm, hm', hkey, hkey', hbls⟩ : ∃ r ∈ committing rotating,
      (Assigned.genesis config).Heeded r.2 ∧
      (r.1.validatorHistory.setAt 15).contains 4 = true ∧
      (r.1.validatorHistory.setAt 16).contains 4 = true ∧
      (given r.2).signing.activeAt 4 15 = some 4 ∧
      (given r.2).signing.activeAt 4 16 = some 40 ∧
      (given r.2).bls.activeAt 4 15 = some 14 := by decide +kernel
  have hc := committed_committing (Option.mem_def.mp hr)
  obtain ⟨hbefore, hvotes⟩ := seated_heard hc hh hm hkey
  obtain ⟨hafter, -⟩ := seated_heard hc hh hm' hkey'
  exact ⟨r, hr, hbefore, (hvotes 14 hbls).mpr hbls, hafter⟩

/-- A newcomer is not heard at all, and a validator that has rotated not as a voter. -/
theorem members_not_heard :
    (∃ r ∈ committing admitting, (r.1.validatorHistory.setAt 14).contains 5 = true ∧
      (given r.2).signing.activeAt 5 14 = some 5 ∧
      verifySignerAt 5 14 r.1.validatorHistory r.1.validatorKeyHistory =
        .error (.unknownSigner 5)) ∧
    ∃ r ∈ committing rotating, (r.1.validatorHistory.setAt 16).contains 4 = true ∧
      (given r.2).signing.activeAt 4 16 = some 40 ∧ (given r.2).bls.activeAt 4 16 = some 44 ∧
      VotesWith verifier chainId 16 40 44 ⟨⟨16, 0⟩, 40, 0⟩ 0 ∧
      ingressVote verifier (r.1.ingressContext config chainId) ⟨⟨16, 0⟩, 40, 0⟩ (some 0) =
        .error (.invalidBlsPartial 16 40) := by
  have hvotes : VotesWith verifier chainId 16 40 44 ⟨⟨16, 0⟩, 40, 0⟩ 0 := ⟨rfl, rfl, rfl, rfl⟩
  obtain ⟨hnew, r, hr, hm, hkey, hbls, hin⟩ :
      (∃ r ∈ committing admitting, (r.1.validatorHistory.setAt 14).contains 5 = true ∧
        (given r.2).signing.activeAt 5 14 = some 5 ∧
        verifySignerAt 5 14 r.1.validatorHistory r.1.validatorKeyHistory =
          .error (.unknownSigner 5)) ∧
      ∃ r ∈ committing rotating, (r.1.validatorHistory.setAt 16).contains 4 = true ∧
        (given r.2).signing.activeAt 4 16 = some 40 ∧ (given r.2).bls.activeAt 4 16 = some 44 ∧
        ingressVote verifier (r.1.ingressContext config chainId) ⟨⟨16, 0⟩, 40, 0⟩ (some 0) =
          .error (.invalidBlsPartial 16 40) := by decide +kernel
  exact ⟨hnew, r, hr, hm, hkey, hbls, hvotes, hin⟩

end Sample

end Boule
