import Boule.Node.HistoryWrites
import Boule.Node.LiveKeys

/-! What a node derives from the blocks it has committed: the histories, the parameters and the
endpoints, as a function of the chain that the commits of a running node compute. -/
namespace Boule
open ConsensusNode

structure ChainState where
  histories : Histories
  params : ConsensusParamHistory
  endpoints : EndpointRegistry

def RunningNode.state (r : RunningNode) : ChainState := ⟨r.node.histories, r.params, r.endpoints⟩

namespace ChainState

/-- Equal in what can be looked up. -/
structure Alike (s s' : ChainState) : Prop where
  histories : s.histories.Alike s'.histories
  params : s.params = s'.params
  endpoints : s.endpoints.Alike s'.endpoints

theorem Alike.symm {s s' : ChainState} (h : s.Alike s') : s'.Alike s :=
  ⟨h.histories.symm, h.params.symm, h.endpoints.symm⟩

theorem Alike.trans {s s' s'' : ChainState} (h : s.Alike s') (h' : s'.Alike s'') : s.Alike s'' :=
  ⟨h.histories.trans h'.histories, h.params.trans h'.params, h.endpoints.trans h'.endpoints⟩

def genesis (cfg : NodeConfigForConsensus) : ChainState where
  histories := cfg.toNodeConfig.genesisHistories
  params := .new ⟨cfg.minBlockIntervalMs⟩
  endpoints := .new cfg.maxEndpointListLength

section
variable (P : Primitives) (E : CommitPrimitives) (cfg : NodeConfigForConsensus)

/-- A reconfiguration of the histories of a running node, which seats nobody. -/
def change (s : ChainState) (cmd : ReconfigCommand) (newSet : ValidatorSet) : ChainState :=
  { s with
    histories := { s.histories.reconfigured cmd newSet with key := s.histories.key }
    endpoints := (reconfigEndpoints s.endpoints cmd newSet).1 }

def reconfigure (s : ChainState) (block : Block) : ChainState :=
  match blockChange E.toReconfigPrimitives cfg.minVEffDelay (cfg.chainId P) s.histories.set
    block with
  | none => s
  | some (cmd, newSet) => s.change cmd newSet

/-- One committed block. -/
def commit (s : ChainState) (block : Block) : ChainState :=
  let s := s.reconfigure P E cfg block
  let h := applyRotationCommandsToHistories E.toHistoryPrimitives (cfg.chainId P) block s.histories
  ⟨h, (applyCommittedParamUpdates E block s.params).1,
    (applyCommittedEndpoints E (cfg.chainId P) h.set h.key block s.endpoints).1⟩

/-- What the chain makes of genesis. -/
def ofChain (chain : List Block) : ChainState := chain.foldl (commit P E cfg) (genesis cfg)

end

/-! ### Alike states stay alike -/

theorem alike_register_adds {t t' : Table NodeId (List KeyEntry)} (h : t.Same t') (vEff : ℕ)
    (seats : List (NodeId × ℕ)) : (registerAll t vEff seats).Same (registerAll t' vEff seats) :=
  foldl_same (r := Table.Same) (fun s ht => ht.register s.1 vEff s.2) h seats

theorem alike_reconfigEndpoints {r r' : EndpointRegistry} (h : r.Alike r')
    (cmd : ReconfigCommand) (newSet : ValidatorSet) :
    (reconfigEndpoints r cmd newSet).1.Alike (reconfigEndpoints r' cmd newSet).1 := by
  have hseeded : (cmd.adds.foldl (seedNewcomer newSet) (r, false)).1.Alike
      (cmd.adds.foldl (seedNewcomer newSet) (r', false)).1 := by
    refine foldl_same (r := fun p q : EndpointRegistry × Bool => p.1.Alike q.1) ?_ h cmd.adds
    intro p q entry hpq
    unfold seedNewcomer
    split_ifs
    · exact hpq
    · exact keepOnError_same (hpq.seed entry.nodeId entry.initialEndpoints) hpq
  exact foldl_same (r := fun p q : EndpointRegistry × Bool => p.1.Alike q.1)
    (f := forgetRemoved) (g := forgetRemoved) (fun id hpq => hpq.forget id) hseeded cmd.removes

section
variable {P : Primitives} {E : CommitPrimitives} {cfg : NodeConfigForConsensus}

theorem Alike.change {s s' : ChainState} (h : s.Alike s') (cmd : ReconfigCommand)
    (newSet : ValidatorSet) : (s.change cmd newSet).Alike (s'.change cmd newSet) := by
  refine ⟨⟨?_, h.histories.key, ?_, ?_⟩, h.params, alike_reconfigEndpoints h.endpoints cmd newSet⟩
  · exact congrArg (fun set : ValidatorSetHistory => set.extend cmd.vEff newSet) h.histories.set
  · refine rel_map ?_ h.histories.bls
    intro b b' hb
    rw [registerBlsKeys_eq, registerBlsKeys_eq]
    exact alike_register_adds hb cmd.vEff _
  · refine rel_map ?_ h.histories.operator
    intro o o' ho
    rw [registerOperators_eq, registerOperators_eq]
    exact alike_register_adds ho cmd.vEff _

variable (P E cfg) in
theorem Alike.reconfigure {s s' : ChainState} (h : s.Alike s') (block : Block) :
    (s.reconfigure P E cfg block).Alike (s'.reconfigure P E cfg block) := by
  unfold ChainState.reconfigure
  rw [← h.histories.set]
  cases blockChange E.toReconfigPrimitives cfg.minVEffDelay (cfg.chainId P) s.histories.set
    block with
  | none => exact h
  | some change => exact h.change change.1 change.2

theorem acceptedEndpoint_alike {set : ValidatorSetHistory} {key key' : ValidatorKeyHistory}
    (hk : key.Alike key') (chainId : ChainId) (blockView : ℕ) (bytes : Bytes) :
    acceptedEndpoint E chainId set key blockView bytes =
      acceptedEndpoint E chainId set key' blockView bytes := by
  unfold acceptedEndpoint
  simp only [hk.keyAt]

theorem alike_applyCommittedEndpoints {set : ValidatorSetHistory} {key key' : ValidatorKeyHistory}
    (hk : key.Alike key') {r r' : EndpointRegistry} (h : r.Alike r') (chainId : ChainId)
    (block : Block) : (applyCommittedEndpoints E chainId set key block r).1.Alike
      (applyCommittedEndpoints E chainId set key' block r').1 := by
  unfold applyCommittedEndpoints
  refine foldl_same (r := fun p q : EndpointRegistry × Bool => p.1.Alike q.1) ?_ h block.commands
  intro p q bytes hpq
  unfold applyCommittedEndpoint
  rw [acceptedEndpoint_alike hk]
  cases acceptedEndpoint E chainId set key' block.header.view bytes with
  | none => exact hpq
  | some cmd => exact (hpq.apply cmd).1

theorem Alike.commit {s s' : ChainState} (h : s.Alike s') (block : Block) :
    (s.commit P E cfg block).Alike (s'.commit P E cfg block) := by
  have hreconfigured := h.reconfigure P E cfg block
  have hrotated := hreconfigured.histories.applyRotations E.toHistoryPrimitives (cfg.chainId P)
    block
  refine ⟨hrotated, ?_, ?_⟩
  · exact congrArg (fun p => (applyCommittedParamUpdates E block p).1) hreconfigured.params
  · unfold ChainState.commit
    simp only
    rw [hrotated.set]
    exact alike_applyCommittedEndpoints hrotated.key hreconfigured.endpoints _ block

end

end ChainState

/-! ### A commit computes the state of the longer chain -/

section
variable {P : Primitives} {E : CommitPrimitives} {cfg : NodeConfigForConsensus}

section
variable {R : ReconfigPrimitives} {minVEffDelay : ℕ} {chainId : ChainId}

theorem node_change (p : ReconfigProgress) (cmd : ReconfigCommand) (newSet : ValidatorSet) :
    (p.change cmd newSet).node = (p.node.applyReconfig cmd newSet).1 := by
  unfold ReconfigProgress.change
  simp only
  split_ifs <;> rfl

/-- The loop takes at most one change, as `applyReconfigs` does. -/
theorem applyReconfigs_running (r : RunningNode) (block : Block) :
    r.applyReconfigs R minVEffDelay chainId block =
      match blockChange R minVEffDelay chainId r.node.validatorHistory block with
      | none => ⟨r.node, false, r.endpoints, false⟩
      | some (cmd, newSet) =>
        ReconfigProgress.change ⟨r.node, false, r.endpoints, false⟩ cmd newSet := by
  have hskip : ∀ {p : ReconfigProgress}, block.header.view < p.node.validatorHistory.last.vEff →
      ∀ commands : List Bytes, commands.foldl
        (applyReconfigWithEndpoints R minVEffDelay chainId block.header.view) p = p := by
    intro p hlt commands
    induction commands with
    | nil => rfl
    | cons bytes commands ih =>
      rw [List.foldl_cons, applyReconfigWithEndpoints, reconfigChange_eq_none hlt]
      exact ih
  unfold RunningNode.applyReconfigs blockChange
  induction block.commands with
  | nil => rfl
  | cons bytes commands ih =>
    rw [List.foldl_cons, applyReconfigWithEndpoints]
    cases hc : reconfigChange R minVEffDelay chainId r.node.validatorHistory block.header.view
      bytes with
    | none =>
      rw [List.findSome?_cons_of_isNone (by simp [hc])]
      exact ih
    | some change =>
      obtain ⟨cmd, newSet⟩ := change
      have happlied := changeApplied_applyReconfig (last_lt_of_reconfigChange hc) newSet
      have hlast := ValidatorSetHistory.last_of_insertBoundary happlied.inserted
      have hdelay := (reconfigChange_eq_some hc).1
      have hfloor : delayFloor = 4 := rfl
      rw [List.findSome?_cons_of_isSome (by simp [hc]), hc]
      refine hskip ?_ commands
      rw [node_change, hlast]
      show block.header.view < cmd.vEff
      omega

variable (R minVEffDelay chainId) in
/-- The node of the loop is that of `apply_committed_reconfigs`. -/
theorem node_applyReconfigs (r : RunningNode) (block : Block) :
    (r.applyReconfigs R minVEffDelay chainId block).node =
      (r.node.applyReconfigs R minVEffDelay chainId block).1 := by
  rw [applyReconfigs_running, applyReconfigs_eq]
  cases blockChange R minVEffDelay chainId r.node.validatorHistory block with
  | none => rfl
  | some change => exact node_change _ change.1 change.2

end

/-! The puts, all made, leave the store as the commits modelled without them do. -/

theorem applyCommittedRotations_eq_outcome (R : HistoryPrimitives) (chainId : ChainId)
    (s : DurableStore) (n : ConsensusNode) (block : Block) :
    n.applyCommittedRotations R chainId s.storage block =
      (n.rotationOutcome R chainId block).map fun o =>
        ((o.writes.foldl DurableStore.write s).storage, o.node n) := by
  unfold applyCommittedRotations rotationOutcome
  simp only [Option.bind_eq_bind]
  cases block.commands.foldlM (applyCommittedRotation R chainId block.header.view)
    (n.histories, false) with
  | none => rfl
  | some rotated =>
    simp only [Option.bind_some, Option.pure_def, Option.map_some]
    generalize block.commands.foldl (noteApplied (applyOperatorRotationCommand R chainId
      block.header.view n.operatorKeyHistory)) (block.commands.foldl (noteApplied
        (applyRotationCancelCommand R chainId block.header.view)) rotated) = operated
    generalize block.commands.foldl (noteApplied (applyOperatorKeyRotationCommand R chainId
      block.header.view)) (n.operatorKeyHistory, false) = operators
    obtain ⟨h, applied⟩ := operated
    obtain ⟨operator, changed⟩ := operators
    congr 2
    unfold RotationOutcome.writes
    cases changed <;> cases applied <;> cases h.bls <;> rfl

theorem isSome_bls_applyReconfigs (R : ReconfigPrimitives) (minVEffDelay : ℕ)
    (chainId : ChainId) (n : ConsensusNode) (block : Block) :
    (n.applyReconfigs R minVEffDelay chainId block).1.blsKeyHistory.isSome =
      n.blsKeyHistory.isSome := by
  rw [applyReconfigs_eq]
  cases blockChange R minVEffDelay chainId n.validatorHistory block with
  | none => rfl
  | some change =>
    simp only [applyReconfig]
    split
    · rfl
    · split
      · rfl
      · exact Option.isSome_map

theorem applyCommittedReconfigs_eq_writes {R : ReconfigPrimitives} {minVEffDelay : ℕ}
    {chainId : ChainId} (s : DurableStore) (r : RunningNode) (block : Block) :
    r.node.applyCommittedReconfigs R minVEffDelay chainId s.storage block =
      ((((r.applyReconfigs R minVEffDelay chainId block).writes r.node).foldl DurableStore.write
        s).storage, (r.applyReconfigs R minVEffDelay chainId block).node) := by
  have hnode := node_applyReconfigs R minVEffDelay chainId r block
  have hbls := isSome_bls_applyReconfigs R minVEffDelay chainId r.node block
  have happlied : (r.applyReconfigs R minVEffDelay chainId block).applied =
      (r.node.applyReconfigs R minVEffDelay chainId block).2 := by
    rw [applyReconfigs_running, applyReconfigs_eq]
    cases blockChange R minVEffDelay chainId r.node.validatorHistory block with
    | none => rfl
    | some change =>
      simp only [ReconfigProgress.change]
      split_ifs with ha
      · exact ha.symm
      · simpa using ha
  unfold applyCommittedReconfigs ReconfigProgress.writes
  generalize r.applyReconfigs R minVEffDelay chainId block = p at hnode happlied ⊢
  generalize r.node.applyReconfigs R minVEffDelay chainId block = q at hnode happlied hbls ⊢
  obtain ⟨n', applied⟩ := q
  obtain ⟨n'', applied', e, changed⟩ := p
  obtain rfl : n'' = n' := hnode
  obtain rfl : applied' = applied := happlied
  have hsome : n''.blsKeyHistory ≠ r.node.blsKeyHistory → ∃ b, n''.blsKeyHistory = some b := by
    intro hne
    cases hb : n''.blsKeyHistory with
    | some b => exact ⟨b, rfl⟩
    | none =>
      rw [hb] at hbls hne
      have hnone := Option.isNone_iff_eq_none.mp (Option.isSome_eq_false_iff.mp hbls.symm)
      exact absurd hnone.symm hne
  simp only [List.foldl_append]
  by_cases hop : n''.operatorKeyHistory = r.node.operatorKeyHistory <;>
    by_cases hb : n''.blsKeyHistory = r.node.blsKeyHistory
  · simp only [if_pos hop, if_pos hb]
    cases changed <;> cases applied' <;> rfl
  · obtain ⟨b, hn⟩ := hsome hb
    simp only [if_pos hop, if_neg hb]
    rw [hn]
    cases changed <;> cases applied' <;> rfl
  · simp only [if_neg hop, if_pos hb]
    cases changed <;> cases applied' <;> rfl
  · obtain ⟨b, hn⟩ := hsome hb
    simp only [if_neg hop, if_neg hb]
    rw [hn]
    cases changed <;> cases applied' <;> rfl

/-- The puts for endpoints and parameters are under keys of their own. -/
theorem storage_write_rest (s : DurableStore) (published : EndpointRegistry × Bool)
    (updated : ConsensusParamHistory × Bool) :
    ((if updated.2 then [.params updated.1.toPersisted] else []).foldl DurableStore.write
      ((if published.2 then [.endpoints published.1] else []).foldl DurableStore.write
        s)).storage = s.storage := by
  cases published.2 <;> cases updated.2 <;> rfl

theorem applyBlock_eq_applyCommittedHistories (s : DurableStore) {r r' : RunningNode}
    {block : Block} {ws : List HistoryWrite} (h : r.applyBlock P E cfg block = some (r', ws)) :
    r.node.applyCommittedHistories E.toHistoryPrimitives (cfg.chainId P) cfg.minVEffDelay
      s.storage block = some ((ws.foldl DurableStore.write s).storage, r'.node) := by
  unfold RunningNode.applyBlock at h
  simp only [Option.bind_eq_bind] at h
  obtain ⟨rotated, hrotated, h⟩ := Option.bind_eq_some_iff.mp h
  obtain ⟨rfl, rfl⟩ := Prod.mk.inj (Option.some.inj h)
  unfold applyCommittedHistories
  rw [applyCommittedReconfigs_eq_writes s r block]
  simp only
  rw [applyCommittedRotations_eq_outcome, hrotated, Option.map_some]
  rw [List.foldl_append, List.foldl_append, storage_write_rest, List.foldl_append]

variable (P E cfg) in
theorem isSome_applyBlock {r : RunningNode} (hb : r.node.blsKeyHistory.isSome) (block : Block) :
    (r.applyBlock P E cfg block).isSome := by
  have hreconfigured : (r.applyReconfigs E.toReconfigPrimitives cfg.minVEffDelay (cfg.chainId P)
      block).node.blsKeyHistory.isSome := by
    rw [node_applyReconfigs, isSome_bls_applyReconfigs]
    exact hb
  generalize hp : r.applyReconfigs E.toReconfigPrimitives cfg.minVEffDelay (cfg.chainId P)
    block = p at hreconfigured
  have hrotated : (p.node.rotationOutcome E.toHistoryPrimitives (cfg.chainId P) block).isSome := by
    have hnone := (applyCommittedRotations_eq_none E.toHistoryPrimitives (cfg.chainId P)
      Storage.empty p.node block).not.mpr fun h => by simp [h.1] at hreconfigured
    have heq := applyCommittedRotations_eq_outcome E.toHistoryPrimitives (cfg.chainId P)
      DurableStore.empty p.node block
    rw [← Option.isSome_map, ← heq]
    exact Option.isSome_iff_ne_none.mpr hnone
  obtain ⟨rotated, hr⟩ := Option.isSome_iff_exists.mp hrotated
  unfold RunningNode.applyBlock
  simp only [Option.bind_eq_bind, hp, hr, Option.bind_some]
  rfl

variable (P E cfg) in
theorem reconfigure_state {r : RunningNode}
    (hsync : r.node.core.state.validatorHistory = r.node.validatorHistory) (block : Block) :
    (r.state.reconfigure P E cfg block).histories =
        (r.applyReconfigs E.toReconfigPrimitives cfg.minVEffDelay (cfg.chainId P)
          block).node.histories ∧
      (r.state.reconfigure P E cfg block).endpoints =
        (r.applyReconfigs E.toReconfigPrimitives cfg.minVEffDelay (cfg.chainId P)
          block).endpoints := by
  rw [applyReconfigs_running]
  have hset : r.state.histories.set = r.node.validatorHistory := rfl
  unfold ChainState.reconfigure
  rw [hset]
  cases hc : blockChange E.toReconfigPrimitives cfg.minVEffDelay (cfg.chainId P)
    r.node.validatorHistory block with
  | none => exact ⟨rfl, rfl⟩
  | some change =>
    obtain ⟨cmd, newSet⟩ := change
    have hlt := last_lt_of_blockChange hc
    have happlied : (r.node.applyReconfig cmd newSet).2 = true :=
      (changeApplied_applyReconfig hlt newSet).applied.mpr (hsync ▸ hlt)
    have hhistories := histories_applyReconfig hlt newSet
    rw [hsync, if_pos hlt, if_pos hlt] at hhistories
    simp only [ReconfigProgress.change, happlied, if_true, hhistories]
    exact ⟨rfl, rfl⟩

/-- A commit takes the node to the state of the longer chain. -/
theorem state_applyBlock {r r' : RunningNode}
    (hsync : r.node.core.state.validatorHistory = r.node.validatorHistory) {block : Block}
    {ws : List HistoryWrite} (h : r.applyBlock P E cfg block = some (r', ws)) :
    r'.state = r.state.commit P E cfg block := by
  obtain ⟨hhistories, hendpoints⟩ := reconfigure_state P E cfg hsync block
  unfold RunningNode.applyBlock at h
  simp only [Option.bind_eq_bind] at h
  obtain ⟨rotated, hrotated, h⟩ := Option.bind_eq_some_iff.mp h
  have hnode := congrArg Prod.fst (Option.some.inj h)
  simp only at hnode
  have hcommitted := committedRotations_of_some ((applyCommittedRotations_eq_outcome
    E.toHistoryPrimitives (cfg.chainId P) DurableStore.empty _ block).trans
      (congrArg (Option.map _) hrotated))
  have hrotatedHistories := hcommitted.histories
  rw [← hhistories] at hrotatedHistories
  have hparams : (r.state.reconfigure P E cfg block).params = r.params := by
    unfold ChainState.reconfigure
    split <;> rfl
  unfold ChainState.commit
  simp only
  rw [← hrotatedHistories, hparams, hendpoints, ← hnode]
  rfl

end

end Boule
