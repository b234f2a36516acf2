import Boule.Node.ChainState
import Boule.Node.HistoryCheck

/-! What a node finds on disk when it starts again: the state of the committed chain, as long as no
missing put and no default loses a change. -/
namespace Boule
open ConsensusNode

/-! ### States that chains lead to -/

namespace ChainState

structure Sound (cfg : NodeConfigForConsensus) (s : ChainState) : Prop where
  startsFrom : s.histories.set.StartsFrom cfg.validatorSet
  rooted : s.histories.key.Rooted
  bls : HasBls Ascending s.histories.bls
  operator : ∃ op ∈ s.histories.operator, Ordered op.byStableId
  maxLen : s.endpoints.maxLen = cfg.maxEndpointListLength

end ChainState

theorem ValidatorKeyHistory.Rooted.congr {h h' : ValidatorKeyHistory} (hr : h.Rooted)
    (ha : h.Alike h') : h'.Rooted where
  first := fun id entries he => hr.first id entries ((ha.entries id).trans he)
  sorted := fun id entries he => hr.sorted id entries ((ha.entries id).trans he)
  indexed := by
    intro key id hk
    obtain ⟨entries, he, hmem⟩ := hr.indexed key id ((ha.index key).trans hk)
    exact ⟨entries, (ha.entries id).symm.trans he, hmem⟩

theorem maxLen_reconfigEndpoints (r : EndpointRegistry) (cmd : ReconfigCommand)
    (newSet : ValidatorSet) : (reconfigEndpoints r cmd newSet).1.maxLen = r.maxLen := by
  have hseed : ∀ (p : EndpointRegistry × Bool) entry,
      (seedNewcomer newSet p entry).1.maxLen = p.1.maxLen := by
    intro p entry
    unfold seedNewcomer
    split_ifs
    · rfl
    · exact keepOnError_keeps (f := fun r : EndpointRegistry => r.maxLen)
        fun _ hr => EndpointRegistry.maxLen_of_seed hr
  have hforget : ∀ (p : EndpointRegistry × Bool) id, (forgetRemoved p id).1.maxLen = p.1.maxLen :=
    fun _ _ => rfl
  unfold reconfigEndpoints
  rw [foldl_keeps (f := fun p : EndpointRegistry × Bool => p.1.maxLen) hforget,
    foldl_keeps (f := fun p : EndpointRegistry × Bool => p.1.maxLen) hseed]

theorem maxLen_applyCommittedEndpoints {E : CommitPrimitives} {chainId : ChainId}
    {set : ValidatorSetHistory} {key : ValidatorKeyHistory} (block : Block)
    (r : EndpointRegistry) :
    (applyCommittedEndpoints E chainId set key block r).1.maxLen = r.maxLen := by
  unfold applyCommittedEndpoints
  rw [foldl_keeps (f := fun p : EndpointRegistry × Bool => p.1.maxLen)]
  intro p bytes
  unfold applyCommittedEndpoint
  split
  · rfl
  · exact EndpointRegistry.maxLen_apply _ _

namespace ChainState

section
variable {P : Primitives} {E : CommitPrimitives} {cfg : NodeConfigForConsensus}

theorem Sound.congr {s s' : ChainState} (h : s.Sound cfg) (ha : s.Alike s') : s'.Sound cfg where
  startsFrom := ha.histories.set ▸ h.startsFrom
  rooted := h.rooted.congr ha.histories.key
  bls := h.bls.congr ha.histories.bls fun hs hb id entries he => hb id entries ((hs id).trans he)
  operator := by
    obtain ⟨op, hop, ho⟩ := h.operator
    have hrel := ha.histories.operator
    rw [Option.mem_def.mp hop] at hrel
    revert hrel
    cases s'.histories.operator with
    | none => rintro ⟨⟩
    | some op' =>
      rintro ⟨hs⟩
      exact ⟨op', rfl, fun id entries he => ho id entries ((hs id).trans he)⟩
  maxLen := ha.endpoints.maxLen.symm.trans h.maxLen

theorem sound_genesis : (genesis cfg).Sound cfg where
  startsFrom := ⟨[], rfl⟩
  rooted := rooted_genesis cfg.toNodeConfig
  bls := ⟨_, rfl, (ordered_blsGenesis cfg.genesisBls).ascending⟩
  operator := ⟨_, rfl, ordered_operatorGenesis cfg.operatorKeys⟩
  maxLen := rfl

theorem Sound.reconfigure {s : ChainState} (h : s.Sound cfg) (block : Block) :
    (s.reconfigure P E cfg block).Sound cfg := by
  unfold ChainState.reconfigure
  cases hc : blockChange E.toReconfigPrimitives cfg.minVEffDelay (cfg.chainId P) s.histories.set
    block with
  | none => exact h
  | some change =>
    obtain ⟨cmd, newSet⟩ := change
    constructor
    · exact h.startsFrom.extendBy (some (cmd, newSet))
    · exact h.rooted
    · exact keptByEdits_ascending.registerBls h.bls (vEff_pos_of_blockChange hc) newSet
    · obtain ⟨op, hop, ho⟩ := h.operator
      exact ⟨_, Option.map_eq_some_iff.mpr ⟨op, hop, rfl⟩, ordered_registerOperators ho cmd newSet⟩
    · exact (maxLen_reconfigEndpoints _ cmd newSet).trans h.maxLen

theorem Sound.commit {s : ChainState} (h : s.Sound cfg) (block : Block) :
    (s.commit P E cfg block).Sound cfg := by
  have hs := h.reconfigure (P := P) (E := E) block
  unfold ChainState.commit
  generalize s.reconfigure P E cfg block = t at hs
  obtain ⟨op, hop, ho⟩ := hs.operator
  have hkeys := rotated_keeps E.toHistoryPrimitives (cfg.chainId P)
    (Q := fun key bls => key.Rooted ∧ HasBls Ascending bls)
    (fun _ hr hq => ⟨hq.1.applyRotation hr.applied, keptByEdits_ascending.rotateBls hq.2 _ _⟩)
    (fun _ hc hq => ⟨hq.1.cancelPendingRotation hc, keptByEdits_ascending.cancelBls hq.2 _ _ _⟩)
    block ⟨hs.rooted, hs.bls⟩
  constructor
  · simp only [set_rotated]
    exact hs.startsFrom
  · exact hkeys.1
  · exact hkeys.2
  · simp only [applyRotationCommandsToHistories_eq E.toHistoryPrimitives (cfg.chainId P) block
      t.histories op hop]
    exact ⟨_, rfl, applyOperatorKeyRotations_keeps (fun ha ho =>
      (keptByEdits_ascending.appendEntry ha ho.ascending).ordered
        (appendEntry_ne_nil ho.get?_ne_nil ha)) _ _ block ho⟩
  · exact (maxLen_applyCommittedEndpoints block _).trans hs.maxLen

/-- Every chain leads to a state in order. -/
theorem sound_ofChain (chain : List Block) : (ofChain P E cfg chain).Sound cfg := by
  unfold ofChain
  induction chain using List.reverseRecOn with
  | nil => exact sound_genesis
  | append_singleton chain block ih =>
    rw [List.foldl_append, List.foldl_cons, List.foldl_nil]
    exact ih.commit block

end

end ChainState

/-! ### What is on disk -/

/-- The histories on disk; one that was never written is that of genesis. -/
def Storage.histories (cfg : NodeConfig) (s : Storage) : PersistedHistories where
  set := s.validatorHistory.getD (ValidatorSetHistory.fromGenesis cfg.validatorSet).toPersisted
  key := s.validatorKeyHistory.getD cfg.genesisHistories.key.toPersisted
  bls := some (s.blsKeyHistory.getD (BlsKeyHistory.withGenesis cfg.genesisBls).toPersisted)
  operator := some (s.operatorKeyHistory.getD
    (OperatorKeyHistory.withGenesis cfg.operatorKeys).toPersisted)

/-- All that a node keeps of its chain, as it is written. -/
structure Contents where
  histories : PersistedHistories
  params : PersistedConsensusParamHistory
  endpoints : NodeId → ValidatorEndpoints

namespace DurableStore

def contents (cfg : NodeConfigForConsensus) (s : DurableStore) : Contents where
  histories := s.storage.histories cfg.toNodeConfig
  params := s.params.getD (ConsensusParamHistory.new ⟨cfg.minBlockIntervalMs⟩).toPersisted
  endpoints := (s.endpoints.getD (.new cfg.maxEndpointListLength)).current

end DurableStore

def ChainState.contents (s : ChainState) : Contents :=
  ⟨s.histories.toPersisted, s.params.toPersisted, s.endpoints.current⟩

theorem ChainState.Alike.contents {s s' : ChainState} (h : s.Alike s') :
    s.contents = s'.contents := by
  unfold ChainState.contents
  rw [h.histories.toPersisted, h.params, funext h.endpoints.current]

/-! ### A commit writes what it changes -/

section
variable {P : Primitives} {E : CommitPrimitives} {cfg : NodeConfigForConsensus}

theorem stored_applyCommittedReconfigs {R : HistoryPrimitives} {minVEffDelay : ℕ}
    {chainId : ChainId} {cfg : NodeConfig} {s s' : Storage} {n n' : ConsensusNode} {block : Block}
    (hsync : n.core.state.validatorHistory = n.validatorHistory)
    (hbls : n.blsKeyHistory.isSome) (hn : s.histories cfg = n.histories.toPersisted)
    (h : n.applyCommittedReconfigs R.toReconfigPrimitives minVEffDelay chainId s block = (s', n')) :
    s'.histories cfg = n'.histories.toPersisted := by
  have hset := (commitHistory_applyCommittedReconfigs R.toReconfigPrimitives minVEffDelay chainId s
    n block).stored hsync
  have hkey := key_applyReconfigs R chainId n minVEffDelay block
  have hsome := isSome_bls_applyReconfigs R.toReconfigPrimitives minVEffDelay chainId n block
  rw [h] at hset
  simp only at hset
  unfold applyCommittedReconfigs at h
  simp only at h
  generalize n.applyReconfigs R.toReconfigPrimitives minVEffDelay chainId block = r at h hkey hsome
  obtain rfl : r.1 = n' := congrArg Prod.snd h
  obtain ⟨bls, hb⟩ := Option.isSome_iff_exists.mp (hsome.trans hbls)
  have hstored := congrArg Prod.fst h
  simp only at hstored
  obtain ⟨hs, hk, hbl, hop⟩ := PersistedHistories.mk.inj hn
  apply PersistedHistories.mk.injEq .. |>.mpr
  refine ⟨?_, ?_, ?_, ?_⟩
  · rcases hset with hset | ⟨hset, hsame⟩
    · rw [hset]
      rfl
    · rw [hset]
      exact hs.trans (congrArg ValidatorSetHistory.toPersisted hsame).symm
  · rw [← hstored]
    exact hk.trans (congrArg ValidatorKeyHistory.toPersisted hkey).symm
  · rw [← hstored]
    by_cases hsame : r.1.blsKeyHistory = n.blsKeyHistory
    · simp only [if_pos hsame]
      exact hbl.trans (congrArg (Option.map BlsKeyHistory.toPersisted) hsame).symm
    · have hbls' : r.1.histories.bls = some bls := hb
      simp only [if_neg hsame]
      rw [hb, hbls']
      rfl
  · rw [← hstored]
    by_cases hsame : r.1.operatorKeyHistory = n.operatorKeyHistory
    · simp only [if_pos hsame]
      exact hop.trans (congrArg (fun o => some (OperatorKeyHistory.toPersisted o)) hsame).symm
    · simp only [if_neg hsame]
      rfl

theorem stored_applyCommittedRotations {R : HistoryPrimitives} {chainId : ChainId}
    {cfg : NodeConfig} {s s' : Storage} {n n' : ConsensusNode} {block : Block}
    (h : n.applyCommittedRotations R chainId s block = some (s', n'))
    (hbls : n'.blsKeyHistory.isSome) (hn : s.histories cfg = n.histories.toPersisted) :
    s'.histories cfg = n'.histories.toPersisted := by
  have hr := committedRotations_of_some h
  obtain ⟨bls, hb⟩ := Option.isSome_iff_exists.mp hbls
  obtain ⟨hs, hk, hbl, hop⟩ := PersistedHistories.mk.inj hn
  have hset : s'.validatorHistory = s.validatorHistory ∧
      n'.validatorHistory = n.validatorHistory := by
    rw [hr.stored, hr.node]
    exact ⟨rfl, rfl⟩
  have hkeys : (s'.histories cfg).key = n'.histories.toPersisted.key ∧
      (s'.histories cfg).bls = n'.histories.toPersisted.bls := by
    unfold Storage.histories
    simp only
    rcases hr.keys with ⟨hkey, hbls'⟩ | ⟨hkey, hbls', hsame, hsameBls⟩
    · rw [hkey, hbls', hb]
      exact ⟨rfl, (congrArg (Option.map BlsKeyHistory.toPersisted) hb).symm⟩
    · rw [hkey, hbls']
      exact ⟨hk.trans (congrArg ValidatorKeyHistory.toPersisted hsame).symm,
        hbl.trans (congrArg (Option.map BlsKeyHistory.toPersisted) hsameBls).symm⟩
  apply PersistedHistories.mk.injEq .. |>.mpr
  refine ⟨?_, hkeys.1, hkeys.2, ?_⟩
  · rw [hset.1]
    exact hs.trans (congrArg ValidatorSetHistory.toPersisted hset.2).symm
  · rcases hr.operator with hstored | ⟨hstored, hsame⟩
    · rw [hstored]
      rfl
    · rw [hstored]
      exact hop.trans (congrArg (fun o => some (OperatorKeyHistory.toPersisted o)) hsame).symm

/-- A loop over the endpoints that reports no change has made none. -/
theorem alike_of_unflagged {β : Type} {step : EndpointRegistry × Bool → β → EndpointRegistry × Bool}
    (hstep : ∀ p b, (step p b).2 = false → p.2 = false ∧ (step p b).1.Alike p.1)
    (p : EndpointRegistry × Bool) (bs : List β) (h : (bs.foldl step p).2 = false) :
    p.2 = false ∧ (bs.foldl step p).1.Alike p.1 := by
  induction bs generalizing p with
  | nil => exact ⟨h, .refl _⟩
  | cons b bs ih =>
    obtain ⟨hflag, hrest⟩ := ih (step p b) h
    obtain ⟨hp, hb⟩ := hstep p b hflag
    exact ⟨hp, hrest.trans hb⟩

theorem alike_of_reconfigEndpoints {r : EndpointRegistry} {cmd : ReconfigCommand}
    {newSet : ValidatorSet} (h : (reconfigEndpoints r cmd newSet).2 = false) :
    (reconfigEndpoints r cmd newSet).1.Alike r := by
  have hforget : ∀ (p : EndpointRegistry × Bool) id, (forgetRemoved p id).2 = false →
      p.2 = false ∧ (forgetRemoved p id).1.Alike p.1 := by
    intro p id hf
    obtain ⟨hp, hlisted⟩ := Bool.or_eq_false_iff.mp hf
    exact ⟨hp, EndpointRegistry.forget_of_not_listed hlisted⟩
  have hseed : ∀ (p : EndpointRegistry × Bool) entry, (seedNewcomer newSet p entry).2 = false →
      p.2 = false ∧ (seedNewcomer newSet p entry).1.Alike p.1 := by
    intro p entry hf
    unfold seedNewcomer at hf ⊢
    split_ifs at hf ⊢
    · exact ⟨hf, .refl _⟩
    · obtain ⟨hp, hseeded⟩ := Bool.or_eq_false_iff.mp hf
      cases hs : p.1.seed entry.nodeId entry.initialEndpoints with
      | ok r => rw [hs] at hseeded; cases hseeded
      | error e =>
        simp only
        exact ⟨hp, .refl _⟩
  unfold reconfigEndpoints at h ⊢
  obtain ⟨hflag, hforgotten⟩ := alike_of_unflagged hforget _ _ h
  exact hforgotten.trans (alike_of_unflagged hseed _ _ hflag).2

theorem alike_of_applyCommittedEndpoints {chainId : ChainId} {set : ValidatorSetHistory}
    {key : ValidatorKeyHistory} {block : Block} {r : EndpointRegistry}
    (h : (applyCommittedEndpoints E chainId set key block r).2 = false) :
    (applyCommittedEndpoints E chainId set key block r).1.Alike r := by
  unfold applyCommittedEndpoints at h ⊢
  refine (alike_of_unflagged ?_ _ _ h).2
  intro p bytes hf
  unfold applyCommittedEndpoint at hf ⊢
  cases hc : acceptedEndpoint E chainId set key block.header.view bytes with
  | none =>
    rw [hc] at hf
    exact ⟨hf, .refl _⟩
  | some cmd =>
    rw [hc] at hf
    obtain ⟨hp, happlied⟩ := Bool.or_eq_false_iff.mp hf
    simp only at happlied ⊢
    cases ha : (p.1.apply cmd).2 with
    | ok u => rw [ha] at happlied; cases happlied
    | error e => exact ⟨hp, EndpointRegistry.apply_of_error ha⟩

variable (P E cfg) in
theorem current_applyReconfigs (r : RunningNode) (block : Block)
    (h : (r.applyReconfigs E.toReconfigPrimitives cfg.minVEffDelay (cfg.chainId P)
      block).endpointsChanged = false) :
    (r.applyReconfigs E.toReconfigPrimitives cfg.minVEffDelay (cfg.chainId P)
      block).endpoints.Alike r.endpoints := by
  rw [applyReconfigs_running] at h ⊢
  cases hc : blockChange E.toReconfigPrimitives cfg.minVEffDelay (cfg.chainId P)
    r.node.validatorHistory block with
  | none => exact .refl _
  | some change =>
    rw [hc] at h
    simp only [ReconfigProgress.change] at h ⊢
    split_ifs at h ⊢
    · exact alike_of_reconfigEndpoints ((Bool.false_or _).symm.trans h)
    · exact .refl _

/-- The puts of reconfigurations leave the parameters, and write the endpoints if flagged. -/
theorem rest_foldl_reconfigs (p : ReconfigProgress) (before : ConsensusNode) (s : DurableStore) :
    ((p.writes before).foldl DurableStore.write s).params = s.params ∧
      ((p.writes before).foldl DurableStore.write s).endpoints =
        if p.endpointsChanged then some p.endpoints else s.endpoints := by
  have hoperator : ∀ t : DurableStore, ∃ storage,
      (if p.node.operatorKeyHistory = before.operatorKeyHistory then []
        else [.operator p.node.operatorKeyHistory.toPersisted]).foldl DurableStore.write t =
          { t with storage := storage } := by
    intro t
    split_ifs <;> exact ⟨_, rfl⟩
  have hbls : ∀ t : DurableStore, ∃ storage,
      (if p.node.blsKeyHistory = before.blsKeyHistory then []
        else (p.node.blsKeyHistory.map fun b => .bls b.toPersisted).toList).foldl
          DurableStore.write t = { t with storage := storage } := by
    intro t
    split_ifs
    · exact ⟨_, rfl⟩
    · cases p.node.blsKeyHistory <;> exact ⟨_, rfl⟩
  have hvalidators : ∀ t : DurableStore, ∃ storage,
      (if p.applied then [.validators p.node.validatorHistory.toPersisted] else []).foldl
        DurableStore.write t = { t with storage := storage } := by
    intro t
    split_ifs <;> exact ⟨_, rfl⟩
  unfold ReconfigProgress.writes
  simp only [List.foldl_append]
  obtain ⟨storage, h⟩ := hoperator s
  obtain ⟨storage', h'⟩ := hbls { s with storage := storage }
  rw [h, h']
  obtain ⟨storage'', h''⟩ := hvalidators ((if p.endpointsChanged then [.endpoints p.endpoints]
    else []).foldl DurableStore.write { s with storage := storage' })
  rw [h'']
  cases p.endpointsChanged <;> exact ⟨rfl, rfl⟩

/-- Rotations write keys only. -/
theorem rest_foldl_rotations (o : RotationOutcome) (s : DurableStore) :
    (o.writes.foldl DurableStore.write s).params = s.params ∧
      (o.writes.foldl DurableStore.write s).endpoints = s.endpoints := by
  unfold RotationOutcome.writes
  cases o.operatorChanged <;> cases o.applied <;> cases o.histories.bls <;> exact ⟨rfl, rfl⟩

/-- What a commit does to the parameters and the endpoints, and all its puts. -/
theorem applyBlock_eq_some {r r' : RunningNode} {block : Block} {ws : List HistoryWrite}
    (h : r.applyBlock P E cfg block = some (r', ws)) : ∃ p o published updated,
    r.applyReconfigs E.toReconfigPrimitives cfg.minVEffDelay (cfg.chainId P) block = p ∧
      applyCommittedEndpoints E (cfg.chainId P) r'.node.validatorHistory
        r'.node.validatorKeyHistory block p.endpoints = published ∧
      applyCommittedParamUpdates E block r.params = updated ∧
      r'.endpoints = published.1 ∧ r'.params = updated.1 ∧
      ws = p.writes r.node ++ RotationOutcome.writes o ++
        (if published.2 then [.endpoints published.1] else []) ++
        (if updated.2 then [.params updated.1.toPersisted] else []) := by
  unfold RunningNode.applyBlock at h
  simp only [Option.bind_eq_bind] at h
  obtain ⟨o, -, h⟩ := Option.bind_eq_some_iff.mp h
  obtain ⟨rfl, rfl⟩ := Prod.mk.inj (Option.some.inj h)
  exact ⟨_, o, _, _, rfl, rfl, rfl, rfl, rfl, rfl⟩

/-- After all its puts, the store holds what the node holds after the commit. -/
theorem contents_applyBlock {s : DurableStore} {r r' : RunningNode} {block : Block}
    {ws : List HistoryWrite} (hsync : r.node.core.state.validatorHistory = r.node.validatorHistory)
    (hbls : r.node.blsKeyHistory.isSome) (hbls' : r'.node.blsKeyHistory.isSome)
    (hc : s.contents cfg = r.state.contents) (h : r.applyBlock P E cfg block = some (r', ws)) :
    (ws.foldl DurableStore.write s).contents cfg = r'.state.contents := by
  have hhistories : (ws.foldl DurableStore.write s).storage.histories cfg.toNodeConfig =
      r'.node.histories.toPersisted := by
    have hcommit := applyBlock_eq_applyCommittedHistories s h
    unfold applyCommittedHistories at hcommit
    exact stored_applyCommittedRotations hcommit hbls' (stored_applyCommittedReconfigs hsync hbls
      (congrArg Contents.histories hc) rfl)
  obtain ⟨p, o, published, updated, hp, hpublished, hupdated, hendpoints, hparams, hws⟩ :=
    applyBlock_eq_some h
  rw [hws] at hhistories ⊢
  simp only [List.foldl_append] at hhistories ⊢
  have hreconfigs := rest_foldl_reconfigs p r.node s
  have hrotations := rest_foldl_rotations o ((p.writes r.node).foldl DurableStore.write s)
  generalize o.writes.foldl DurableStore.write ((p.writes r.node).foldl DurableStore.write s) = t
    at hhistories hrotations ⊢
  have hbefore : (t.endpoints.getD (.new cfg.maxEndpointListLength)).current =
      p.endpoints.current := by
    rw [hrotations.2, hreconfigs.2]
    cases hf : p.endpointsChanged with
    | true => rfl
    | false =>
      have hsame := current_applyReconfigs P E cfg r block
      rw [hp] at hsame
      exact (congrArg Contents.endpoints hc).trans (funext (hsame hf).current).symm
  apply Contents.mk.injEq .. |>.mpr
  refine ⟨hhistories, ?_, ?_⟩
  · have hkept : ((if published.2 then [.endpoints published.1] else []).foldl DurableStore.write
        t).params = s.params := by
      rw [← hreconfigs.1, ← hrotations.1]
      cases published.2 <;> rfl
    cases hf : updated.2 with
    | true => exact congrArg ConsensusParamHistory.toPersisted hparams.symm
    | false =>
      have hsame := (noteApplied_unchanged applyParamUpdateCommand_unchanged (r.params, false)
        block.commands ((congrArg Prod.snd hupdated).trans hf)).2
      have hr : r'.params = r.params :=
        hparams.trans ((congrArg Prod.fst hupdated).symm.trans hsame)
      simp only [Bool.false_eq_true, if_false, List.foldl_nil]
      rw [hkept]
      exact (congrArg Contents.params hc).trans (congrArg ConsensusParamHistory.toPersisted hr).symm
  · have hlast : ∀ u : DurableStore, ((if updated.2 then [.params updated.1.toPersisted]
        else []).foldl DurableStore.write u).endpoints = u.endpoints := by
      intro u
      cases updated.2 <;> rfl
    rw [hlast]
    cases hf : published.2 with
    | true => exact congrArg EndpointRegistry.current hendpoints.symm
    | false =>
      have hsame := alike_of_applyCommittedEndpoints ((congrArg Prod.snd hpublished).trans hf)
      rw [hpublished] at hsame
      exact hbefore.trans ((funext hsame.current).symm.trans
        (congrArg EndpointRegistry.current hendpoints.symm))

end

/-! ### What a node reads back -/

theorem foldl_register_listed {t : Table NodeId (List KeyEntry)} {seats : List (ℕ × NodeId)}
    (h : ∀ s ∈ seats, t.containsKey s.2) :
    seats.foldl (fun t s => register t s.2 s.1 s.2) t = t := by
  induction seats with
  | nil => rfl
  | cons s seats ih =>
    rw [List.foldl_cons, register, if_pos (h s (List.mem_cons_self ..))]
    exact ih fun s' hs => h s' (List.mem_cons_of_mem _ hs)

theorem foldl_index_listed {t : Table NodeId NodeId} {seats : List (ℕ × NodeId)}
    (h : ∀ s ∈ seats, t.get? s.2 = some s.2) :
    (seats.foldl (fun (t : Table NodeId NodeId) s => t.insert s.2 s.2) t).Same t := by
  intro key
  induction seats generalizing t with
  | nil => rfl
  | cons s seats ih =>
    have hins : ∀ k, Table.get? (t.insert s.2 s.2) k = t.get? k := by
      intro k
      rw [Table.get?_insert]
      by_cases hk : k = s.2
      · rw [if_pos hk, hk, h s (List.mem_cons_self ..)]
      · rw [if_neg hk]
    rw [List.foldl_cons, ih fun s' hs => (hins s'.2).trans (h s' (List.mem_cons_of_mem _ hs)), hins]

/-- Sets of genesis members only give the key history of genesis. -/
theorem fromSetHistory_alike_genesis {cfg : NodeConfig} {set : ValidatorSetHistory}
    (hs : set.StartsFrom cfg.validatorSet)
    (hmembers : ∀ b ∈ set.boundaries, ∀ id ∈ b.set.members, id ∈ cfg.validatorSet.members) :
    (ValidatorKeyHistory.fromSetHistory set).Alike cfg.genesisHistories.key := by
  obtain ⟨rest, hb⟩ := hs
  have hiter : set.iter.flatMap (fun b => b.2.members.map fun m => (b.1, m)) =
      (cfg.validatorSet.members.map fun m => (0, m)) ++
        (rest.map fun b => (b.vEff, b.set)).flatMap fun b => b.2.members.map fun m => (b.1, m) := by
    rw [ValidatorSetHistory.iter, hb, List.map_cons, List.flatMap_cons]
  have hlater : ∀ s ∈ (rest.map fun b => (b.vEff, b.set)).flatMap
      (fun b => b.2.members.map fun m => (b.1, m)), s.2 ∈ cfg.validatorSet.members := by
    intro s hs
    obtain ⟨b, hmem, hs⟩ := List.mem_flatMap.mp hs
    obtain ⟨b', hmem', rfl⟩ := List.mem_map.mp hmem
    obtain ⟨m, hm, rfl⟩ := List.mem_map.mp hs
    exact hmembers b' (hb ▸ List.mem_cons_of_mem _ hmem') m hm
  have hgenesis : cfg.genesisHistories.key = .fromSetHistory (.fromGenesis cfg.validatorSet) := rfl
  have hentries := fun id => entries_genesis cfg id
  have hindex := fun key => index_genesis cfg key
  rw [hgenesis] at hentries hindex ⊢
  unfold ValidatorKeyHistory.fromSetHistory at hentries hindex ⊢
  simp only [seats_fromGenesis, hiter, List.foldl_append] at hentries hindex ⊢
  constructor
  · simp only
    rw [foldl_register_listed]
    · exact .refl _
    · intro s hs
      rw [Table.containsKey_iff, hentries, if_pos (hlater s hs)]
      exact ⟨_, rfl⟩
  · apply foldl_index_listed
    intro s hs
    rw [hindex, if_pos (hlater s hs)]

/-- Loads that succeed make a node. -/
theorem recover_of_loaded {P : Primitives} {cfg : NodeConfig} {storage : Storage}
    {h : Histories} {op : OperatorKeyHistory} {bls : BlsKeyHistory}
    (hset : storedHistory cfg storage.validatorHistory = some h.set)
    (hs : h.set.StartsFrom cfg.validatorSet)
    (hkey : loadOr storage.validatorKeyHistory ValidatorKeyHistory.fromPersisted
      (.fromSetHistory h.set) = some h.key)
    (hop : loadOr storage.operatorKeyHistory OperatorKeyHistory.fromPersisted
      (.withGenesis cfg.operatorKeys) = some op)
    (hbls : loadOr storage.blsKeyHistory BlsKeyHistory.fromPersisted
      (.withGenesis cfg.genesisBls) = some bls) :
    ∃ n, recover P cfg storage = some n ∧ n.histories = ⟨h.set, h.key, some bls, some op⟩ ∧
      n.core.state.validatorHistory = n.validatorHistory := by
  have hreplayed := (replayBoundaries_iter (startingCore_validatorHistory P cfg storage) hs).2
  unfold startingCore at hreplayed
  obtain ⟨n, hn⟩ : ∃ n, recover P cfg storage = some n ∧
      n.histories = ⟨h.set, h.key, some bls, some op⟩ := by
    unfold storedHistory at hset
    unfold recover
    simp only [hset, hkey, hop, hbls, Option.bind_eq_bind, Option.bind_some, hreplayed]
    exact ⟨_, rfl, rfl⟩
  obtain ⟨hnode, hcore⟩ := recover_history hn.1 hset hs
  exact ⟨n, hn.1, hn.2, hcore.trans hnode.symm⟩

theorem loadOr_of_contents {α π ε : Type} {r : α → α → Prop} {stored : Option π} {persist : α → π}
    {decode : π → Except ε α} {fallback a : α} {p : π} (hc : stored.getD p = persist a)
    (hdecode : ∃ a', decode (persist a) = .ok a' ∧ r a' a)
    (hfallback : stored = none → p = persist a → r fallback a) :
    ∃ a', loadOr stored decode fallback = some a' ∧ r a' a := by
  cases hs : stored with
  | none =>
    rw [hs] at hc
    exact ⟨fallback, rfl, hfallback hs hc⟩
  | some raw =>
    rw [hs] at hc
    obtain rfl : raw = persist a := hc
    obtain ⟨a', ha, hr⟩ := hdecode
    exact ⟨a', by rw [loadOr, ha]; rfl, hr⟩

/-- What a stop may not lose: the index of keys is not written, a key history that was never
written is made from the sets, and a validator without BLS entries is not read back. -/
structure Restorable (s : DurableStore) (st : ChainState) : Prop where
  owned : st.histories.key.Owned
  seated : s.storage.validatorKeyHistory = none → ∀ b ∈ st.histories.set.boundaries,
    ∀ id ∈ b.set.members, (st.histories.key.byStableId.get? id).isSome
  kept : ∀ bls ∈ st.histories.bls, ∀ id, bls.byStableId.get? id ≠ some []

section
variable {cfg : NodeConfigForConsensus} {s : DurableStore} {st : ChainState}

theorem loadedKey (hs : st.Sound cfg) (hc : s.contents cfg = st.contents) (hr : Restorable s st) :
    ∃ key, loadOr s.storage.validatorKeyHistory ValidatorKeyHistory.fromPersisted
      (.fromSetHistory st.histories.set) = some key ∧ key.Alike st.histories.key := by
  have horder := hs.rooted.inOrder hr.owned
  refine loadOr_of_contents (congrArg (fun c => c.histories.key) hc)
    (ValidatorKeyHistory.fromPersisted_toPersisted horder) ?_
  intro hnone hgenesis
  have hentries := same_of_persistKeys hgenesis
  have hmembers : ∀ b ∈ st.histories.set.boundaries, ∀ id ∈ b.set.members,
      id ∈ cfg.validatorSet.members := by
    intro b hb id hid
    have hsome := hr.seated hnone b hb id hid
    rw [← hentries id, entries_genesis] at hsome
    by_contra hnot
    rw [if_neg hnot] at hsome
    cases hsome
  have halike := fromSetHistory_alike_genesis hs.startsFrom hmembers
  have hgenesis := (rooted_genesis cfg.toNodeConfig).inOrder (owned_genesis cfg.toNodeConfig)
  have hsame := hgenesis.alike horder hentries
  exact ⟨halike.entries.trans hsame.entries, halike.index.trans hsame.index⟩

/-- A store with the contents of a state gives back a node in that state. -/
theorem recoverRunning_alike {P : Primitives} (hs : st.Sound cfg)
    (hc : s.contents cfg = st.contents) (hr : Restorable s st) :
    ∃ r, recoverRunning P cfg s = some r ∧ r.state.Alike st ∧
      r.node.core.state.validatorHistory = r.node.validatorHistory := by
  obtain ⟨bls, hbls, hblsOrder⟩ := hs.bls
  obtain ⟨op, hop, hopOrder⟩ := hs.operator
  rw [Option.mem_def] at hbls hop
  obtain ⟨set, hset, rfl⟩ : ∃ set, storedHistory cfg.toNodeConfig s.storage.validatorHistory =
      some set ∧ set = st.histories.set :=
    loadOr_of_contents (congrArg (fun c => c.histories.set) hc)
      ⟨_, ValidatorSetHistory.fromPersisted_toPersisted _, rfl⟩
      fun _ hg => ValidatorSetHistory.toPersisted_injective hg
  obtain ⟨key, hkey, hkeyAlike⟩ := loadedKey hs hc hr
  obtain ⟨bls', hbls', hblsAlike⟩ : ∃ bls', loadOr s.storage.blsKeyHistory
      BlsKeyHistory.fromPersisted (.withGenesis cfg.genesisBls) = some bls' ∧ bls'.Alike bls := by
    have hstored := congrArg (fun c => c.histories.bls) hc
    simp only [ChainState.contents, Histories.toPersisted, hbls] at hstored
    exact loadOr_of_contents (Option.some.inj hstored)
      (BlsKeyHistory.fromPersisted_toPersisted (hblsOrder.ordered (hr.kept bls hbls)))
      fun _ hg => same_of_persistKeys hg
  obtain ⟨op', hop', hopAlike⟩ : ∃ op', loadOr s.storage.operatorKeyHistory
      OperatorKeyHistory.fromPersisted (.withGenesis cfg.operatorKeys) = some op' ∧
        op'.Alike op := by
    have hstored := congrArg (fun c => c.histories.operator) hc
    simp only [ChainState.contents, Histories.toPersisted, hop] at hstored
    exact loadOr_of_contents (Option.some.inj hstored)
      (OperatorKeyHistory.fromPersisted_toPersisted hopOrder) fun _ hg => same_of_persistKeys hg
  obtain ⟨n, hn, hhistories, hsync⟩ := recover_of_loaded (P := P)
    (h := { st.histories with key := key }) hset hs.startsFrom hkey hop' hbls'
  have hparams : loadParamHistory (.new ⟨cfg.minBlockIntervalMs⟩) s.params = st.params := by
    have hstored := congrArg Contents.params hc
    unfold DurableStore.contents at hstored
    cases hp : s.params with
    | none =>
      rw [hp] at hstored
      exact ConsensusParamHistory.toPersisted_injective hstored
    | some p =>
      rw [hp] at hstored
      obtain rfl : p = st.params.toPersisted := hstored
      show keepOnError (ConsensusParamHistory.fromPersisted st.params.toPersisted) _ = _
      rw [ConsensusParamHistory.fromPersisted_toPersisted]
      rfl
  unfold recoverRunning
  simp only [hn, Option.bind_eq_bind, Option.bind_some]
  refine ⟨_, rfl, ⟨?_, hparams, ?_, hs.maxLen.symm⟩, hsync⟩
  · show n.histories.Alike st.histories
    rw [hhistories]
    constructor
    · rfl
    · exact hkeyAlike
    · rw [hbls]
      exact .some hblsAlike
    · rw [hop]
      exact .some hopAlike
  · exact fun v => congrFun (congrArg Contents.endpoints hc) v

end

theorem recover_of_recoverRunning {P : Primitives} {cfg : NodeConfigForConsensus}
    {s : DurableStore} {r : RunningNode} (h : recoverRunning P cfg s = some r) :
    recover P cfg.toNodeConfig s.storage = some r.node := by
  unfold recoverRunning at h
  simp only [Option.bind_eq_bind] at h
  obtain ⟨n, hn, h⟩ := Option.bind_eq_some_iff.mp h
  rw [hn, ← Option.some.inj h]

/-! ### Runs -/

namespace CommitSystem

section
variable (P : Primitives) (E : CommitPrimitives) (cfg : NodeConfigForConsensus)

/-- The inputs that end a running node: a stop, and a block that the checkpoint forbids. -/
def Ends (s : CommitSystem) : CommitInput → Prop
  | .stop => True
  | .commit block => s.pending = [] ∧ weakSubjectivityViolation cfg.weakSubjectivityCheckpoint
      block.header.height (block.hash P) = true
  | _ => False

/-- The puts that are still to come would change nothing, and the node's histories can be read
back. -/
structure Survives (s : CommitSystem) (r : RunningNode) : Prop where
  written : (s.pending.foldl DurableStore.write s.store).contents cfg = s.store.contents cfg
  restorable : Restorable s.store r.state

def EndsSafely (s : CommitSystem) (input : CommitInput) : Prop :=
  s.Ends P cfg input → ∀ r ∈ s.node, s.Survives cfg r

/-- The node has the state of the chain, and so has the store after all puts. -/
structure Reflects (s : CommitSystem) (r : RunningNode) : Prop where
  sync : r.node.core.state.validatorHistory = r.node.validatorHistory
  state : r.state.Alike (.ofChain P E cfg s.chain)
  contents : (s.pending.foldl DurableStore.write s.store).contents cfg = r.state.contents

structure Durable (s : CommitSystem) : Prop where
  running : ∀ r ∈ s.node, s.Reflects P E cfg r
  stopped : s.node = none → s.pending = [] ∧
    ∃ r, recoverRunning P cfg s.store = some r ∧ s.Reflects P E cfg r
  named : s.store.storage.lastCommitted.map LastCommitted.lastCommittedHash =
    s.chain.getLast?.map (Block.hash P)

end

section
variable {P : Primitives} {E : CommitPrimitives} {cfg : NodeConfigForConsensus}
  {s : CommitSystem} {r : RunningNode}

theorem Reflects.sound (h : s.Reflects P E cfg r) : r.state.Sound cfg :=
  (ChainState.sound_ofChain s.chain).congr h.state.symm

theorem Reflects.isSome_bls (h : s.Reflects P E cfg r) : r.node.blsKeyHistory.isSome := by
  obtain ⟨bls, hb, -⟩ := h.sound.bls
  exact Option.isSome_iff_exists.mpr ⟨bls, hb⟩

/-- A node that survives is found again. -/
theorem Reflects.recovered (h : s.Reflects P E cfg r) (hs : s.Survives cfg r) :
    ∃ r', recoverRunning P cfg s.store = some r' ∧
      Reflects P E cfg { s with node := none, pending := [] } r' := by
  have hc : s.store.contents cfg = r.state.contents := hs.written.symm.trans h.contents
  obtain ⟨r', hr', halike, hsync⟩ := recoverRunning_alike (P := P) h.sound hc hs.restorable
  exact ⟨r', hr', hsync, halike.trans h.state, hc.trans halike.contents.symm⟩

theorem durable_fresh : Durable P E cfg fresh := by
  have hs : (ChainState.genesis cfg).Sound cfg := ChainState.sound_genesis
  have hr : Restorable DurableStore.empty (ChainState.genesis cfg) := by
    constructor
    · exact owned_genesis cfg.toNodeConfig
    · intro _ b hb id hid
      obtain rfl := List.mem_singleton.mp hb
      have hentries := entries_genesis cfg.toNodeConfig id
      rw [if_pos hid] at hentries
      exact Option.isSome_iff_exists.mpr ⟨_, hentries⟩
    · intro bls hb
      obtain rfl := Option.some.inj hb
      exact (ordered_blsGenesis cfg.genesisBls).get?_ne_nil
  obtain ⟨r, hr, halike, hsync⟩ := recoverRunning_alike (P := P) (s := .empty) hs rfl hr
  refine ⟨(fun _ hn => nomatch hn), fun _ => ⟨rfl, r, hr, hsync, halike, ?_⟩, rfl⟩
  exact halike.contents.symm

theorem write_lastCommitted (store : DurableStore) (w : HistoryWrite) :
    (store.write w).storage.lastCommitted = store.storage.lastCommitted := by
  cases w <;> rfl

theorem commitBatch_keeps {cfg : NodeConfig} {storage storage' : Storage} {n n' : ConsensusNode}
    {block : Block} (h : n.commitBatch P cfg storage block = some (storage', n')) :
    n'.core = n.core ∧ n'.histories = n.histories ∧
      storage'.histories cfg = storage.histories cfg := by
  unfold commitBatch at h
  simp only at h
  split_ifs at h
  · obtain ⟨rfl, rfl⟩ := Prod.mk.inj (Option.some.inj h)
    exact ⟨rfl, rfl, rfl⟩
  · obtain ⟨rfl, rfl⟩ := Prod.mk.inj (Option.some.inj h)
    exact ⟨rfl, rfl, rfl⟩

theorem Reflects.isSome_bls_of_batch (h : s.Reflects P E cfg r) {block : Block}
    {batch : Storage × ConsensusNode}
    (hbatch : r.node.commitBatch P cfg.toNodeConfig s.store.storage block = some batch) :
    batch.2.blsKeyHistory.isSome := by
  have hsame : batch.2.blsKeyHistory = r.node.blsKeyHistory :=
    congrArg Histories.bls (commitBatch_keeps hbatch).2.1
  rw [hsame]
  exact h.isSome_bls

/-- A running node halts at a violated checkpoint only. -/
theorem Reflects.violated (h : s.Reflects P E cfg r) {block : Block}
    (hc : r.commit P E cfg s.store block = none) :
    weakSubjectivityViolation cfg.weakSubjectivityCheckpoint block.header.height
      (block.hash P) = true := by
  unfold RunningNode.commit at hc
  simp only [Option.bind_eq_bind] at hc
  cases hbatch : r.node.commitBatch P cfg.toNodeConfig s.store.storage block with
  | none => exact commitBatch_eq_none_iff.mp hbatch
  | some batch =>
    obtain ⟨applied, happlied⟩ := Option.isSome_iff_exists.mp
      (isSome_applyBlock P E cfg (r := { r with node := batch.2 })
        (h.isSome_bls_of_batch hbatch) block)
    rw [hbatch, Option.bind_some, happlied] at hc
    cases hc

/-- A commit keeps the store and the node in step with the chain. -/
theorem Reflects.commit {o : CommitOutcome} {block : Block} (h : s.Reflects P E cfg r)
    (hp : s.pending = []) (hc : r.commit P E cfg s.store block = some o) :
    Reflects P E cfg ⟨o.store, some o.node, o.writes, s.chain ++ [block]⟩ o.node ∧
      o.store.storage.lastCommitted.map LastCommitted.lastCommittedHash =
        some (block.hash P) := by
  unfold RunningNode.commit at hc
  simp only [Option.bind_eq_bind] at hc
  obtain ⟨⟨storage, n⟩, hbatch, hc⟩ := Option.bind_eq_some_iff.mp hc
  obtain ⟨⟨node, writes⟩, happlied, hc⟩ := Option.bind_eq_some_iff.mp hc
  obtain rfl := Option.some.inj hc
  obtain ⟨hcore, hhistories, hstored⟩ := commitBatch_keeps hbatch
  have hset : n.validatorHistory = r.node.validatorHistory := congrArg Histories.set hhistories
  have hsync : n.core.state.validatorHistory = n.validatorHistory := by
    rw [hcore, hset]
    exact h.sync
  have hbls := h.isSome_bls_of_batch hbatch
  have hcontents : DurableStore.contents cfg { s.store with storage := storage } =
      (RunningNode.state { r with node := n }).contents := by
    have hbefore := h.contents
    rw [hp] at hbefore
    unfold ChainState.contents RunningNode.state DurableStore.contents at hbefore ⊢
    simp only at hbefore ⊢
    rw [hhistories, hstored]
    exact hbefore
  have hstate : RunningNode.state { r with node := n } = r.state := by
    unfold RunningNode.state
    rw [hhistories]
  have hnext := state_applyBlock (r := { r with node := n }) hsync happlied
  rw [hstate] at hnext
  have hchain : node.state.Alike (.ofChain P E cfg (s.chain ++ [block])) := by
    unfold ChainState.ofChain
    rw [hnext, List.foldl_append]
    exact h.state.commit block
  have hbls' : node.node.blsKeyHistory.isSome := by
    obtain ⟨bls, hb, -⟩ := ((ChainState.sound_ofChain (s.chain ++ [block])).congr hchain.symm).bls
    exact Option.isSome_iff_exists.mpr ⟨bls, hb⟩
  refine ⟨⟨?_, hchain, contents_applyBlock hsync hbls hbls' hcontents happlied⟩, ?_⟩
  · exact core_sync_commit (applyBlock_eq_applyCommittedHistories ⟨storage, none, none⟩ happlied)
      hsync
  · simp only
    rw [(commitBatch_of_some hbatch).lastCommitted]
    rfl

theorem Durable.step (h : s.Durable P E cfg) {input : CommitInput}
    (hends : s.EndsSafely P cfg input) : (s.step P E cfg input).Durable P E cfg := by
  obtain ⟨store, node, pending, chain⟩ := s
  cases input with
  | start =>
    cases node with
    | some r => exact h
    | none =>
      obtain ⟨rfl, r, hr, hreflects⟩ := h.stopped rfl
      simp only [CommitSystem.step, hr]
      refine ⟨?_, (fun hn => nomatch hn), h.named⟩
      intro r' hr'
      obtain rfl := Option.some.inj hr'
      exact ⟨hreflects.sync, hreflects.state, hreflects.contents⟩
  | commit block =>
    cases node with
    | none => exact h
    | some r =>
      have hr := h.running r rfl
      cases pending with
      | cons w ws => exact h
      | nil =>
        cases hc : r.commit P E cfg store block with
        | none =>
          obtain ⟨r', hr', hreflects⟩ := hr.recovered (hends ⟨rfl, hr.violated hc⟩ r rfl)
          simp only [CommitSystem.step, hc]
          exact ⟨(fun _ hn => nomatch hn), fun _ => ⟨rfl, r', hr', hreflects.sync,
            hreflects.state, hreflects.contents⟩, h.named⟩
        | some o =>
          obtain ⟨hreflects, hnamed⟩ := hr.commit rfl hc
          simp only [CommitSystem.step, hc]
          refine ⟨?_, (fun hn => nomatch hn), ?_⟩
          · intro r' hr'
            obtain rfl := Option.some.inj hr'
            exact hreflects
          · simp only
            rw [hnamed, List.getLast?_concat]
            rfl
  | put =>
    cases pending with
    | nil => exact h
    | cons w ws =>
      refine ⟨?_, ?_, ?_⟩
      · intro r hr
        have hreflects := h.running r hr
        exact ⟨hreflects.sync, hreflects.state, hreflects.contents⟩
      · intro hn
        obtain ⟨hpending, -⟩ := h.stopped hn
        cases hpending
      · exact (congrArg (Option.map LastCommitted.lastCommittedHash)
          (write_lastCommitted store w)).trans h.named
  | stop =>
    cases node with
    | none =>
      obtain ⟨rfl, hrest⟩ := h.stopped rfl
      exact h
    | some r =>
      have hr := h.running r rfl
      obtain ⟨r', hr', hreflects⟩ := hr.recovered (hends trivial r rfl)
      exact ⟨(fun _ hn => nomatch hn), fun _ => ⟨rfl, r', hr', hreflects⟩, h.named⟩

theorem durable_run {inputs : List CommitInput}
    (h : Along (CommitSystem.step P E cfg) (EndsSafely P cfg) fresh inputs) :
    (run (CommitSystem.step P E cfg) fresh inputs).Durable P E cfg :=
  h.invariant (fun _ _ hends hd => hd.step hends) durable_fresh

end

end CommitSystem

/-- In a run whose stops find everything written and readable, a running node always has the state
of its chain, and a node that starts again gets it back. -/
theorem restarted_histories {P : Primitives} {E : CommitPrimitives} {cfg : NodeConfigForConsensus}
    {inputs : List CommitInput} (h : Along (CommitSystem.step P E cfg)
      (CommitSystem.EndsSafely P cfg) .fresh inputs) :
    let s := run (CommitSystem.step P E cfg) .fresh inputs
    s.store.storage.lastCommitted.map LastCommitted.lastCommittedHash =
        s.chain.getLast?.map (Block.hash P) ∧
      (∀ r ∈ s.node, r.state.Alike (.ofChain P E cfg s.chain)) ∧
      (s.node = none → ∃ r, recoverRunning P cfg s.store = some r ∧
        r.state.Alike (.ofChain P E cfg s.chain)) := by
  have hd := CommitSystem.durable_run h
  refine ⟨hd.named, fun r hr => (hd.running r hr).state, fun hn => ?_⟩
  obtain ⟨-, r, hr, hreflects⟩ := hd.stopped hn
  exact ⟨r, hr, hreflects.state⟩

/-- Whether a node survives can be read off the listed entries. -/
theorem CommitSystem.survives_of_lists {cfg : NodeConfigForConsensus} {s : CommitSystem}
    {r : RunningNode} (hpending : s.pending = [])
    (hstored : s.store.storage.validatorKeyHistory ≠ none)
    (howned : ∀ p ∈ r.node.validatorKeyHistory.byStableId.toList, ∀ e ∈ p.2,
      r.node.validatorKeyHistory.pubkeyToStableId.get? e.key = some p.1)
    (hkept : ∀ bls ∈ r.node.blsKeyHistory, ∀ p ∈ bls.byStableId.toList, p.2 ≠ []) :
    s.Survives cfg r where
  written := by
    rw [hpending]
    rfl
  restorable := by
    constructor
    · intro id entries he
      exact howned (id, entries) ((Table.mem_toList _ _ _).mpr he)
    · intro hnone
      exact absurd hnone hstored
    · intro bls hb id he
      exact hkept bls hb (id, []) ((Table.mem_toList _ _ _).mpr he) rfl

namespace Sample

def writing : CommitPrimitives :=
  { allChanges with
    decodeEndpoint := fun _ => none
    endpointVerifies := fun _ _ _ _ => false
    decodeParamUpdate := fun _ => none }

def durable : NodeConfigForConsensus :=
  { config with
    minBlockIntervalMs := 100
    maxEndpointListLength := 4 }

def restarting (inputs : List CommitInput) : CommitSystem :=
  run (CommitSystem.step timed writing durable) .fresh inputs

/-- A stop after both puts of a rotation is survived. -/
theorem rotation_restarted : ∃ r ∈ recoverRunning timed durable
    (restarting [.start, .commit rotating, .put, .put, .stop]).store,
      r.state.Alike (.ofChain timed writing durable [rotating]) := by
  obtain ⟨r, hr, hpending, hstored, howned, hbls⟩ :
      ∃ r ∈ (restarting [.start, .commit rotating, .put, .put]).node,
        (restarting [.start, .commit rotating, .put, .put]).pending = [] ∧
        (restarting [.start, .commit rotating, .put, .put]).store.storage.validatorKeyHistory ≠
          none ∧
        (∀ p ∈ r.node.validatorKeyHistory.byStableId.toList, ∀ e ∈ p.2,
          r.node.validatorKeyHistory.pubkeyToStableId.get? e.key = some p.1) ∧
        ∀ bls ∈ r.node.blsKeyHistory, ∀ p ∈ bls.byStableId.toList, p.2 ≠ [] := by decide +kernel
  have hsurvives : (restarting [.start, .commit rotating, .put, .put]).Survives durable r :=
    CommitSystem.survives_of_lists hpending hstored howned hbls
  have hends : Along (CommitSystem.step timed writing durable) (CommitSystem.EndsSafely timed
      durable) .fresh [.start, .commit rotating, .put, .put, .stop] := by
    refine ⟨fun h => h.elim, fun h => absurd h.2 (by decide), fun h => h.elim, fun h => h.elim,
      fun _ r' hr' => ?_, trivial⟩
    obtain rfl := Option.some.inj (hr.symm.trans hr')
    exact hsurvives
  have hchain : (restarting [.start, .commit rotating, .put, .put, .stop]).chain = [rotating] := by
    decide +kernel
  rw [← hchain]
  exact (restarted_histories hends).2.2 rfl

/-- A crash before the put of the key history loses a rotation, and after a clean stop a newcomer
has a key that it did not have. -/
theorem changed_by_restart :
    (∃ r ∈ recoverRunning timed durable (restarting [.start, .commit rotating, .stop]).store,
      r.node.validatorKeyHistory.keyAt 4 16 = some 4 ∧
      (ChainState.ofChain timed writing durable [rotating]).histories.key.keyAt 4 16 = some 40) ∧
    (restarting [.start, .commit admitting, .put, .put]).pending = [] ∧
    ∃ r ∈ recoverRunning timed durable
      (restarting [.start, .commit admitting, .put, .put, .stop]).store,
      r.node.validatorKeyHistory.keyAt 5 16 = some 5 ∧
      (ChainState.ofChain timed writing durable [admitting]).histories.key.keyAt 5 16 = none := by
  decide +kernel

end Sample

end Boule
