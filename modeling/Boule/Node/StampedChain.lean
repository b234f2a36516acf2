import Boule.Node.RestartedHistories

/-! Chains whose blocks were stamped by leaders that had committed some of their ancestors: when
the check of the persisted histories accepts them after a restart. -/
namespace Boule
open ConsensusNode

/-! ### The seed of the rebuild -/

/-- The entries of every id at view zero are those of a genesis table. -/
def KeepsGenesis (genesis t : Table NodeId (List KeyEntry)) : Prop :=
  ∀ id, ((t.get? id).getD []).filter (·.vEff = 0) = (genesis.get? id).getD []

/-- Each id has one key from view zero on. -/
def GenesisTable (t : Table NodeId (List KeyEntry)) : Prop :=
  ∀ id entries, t.get? id = some entries → ∃ key, entries = [⟨0, key⟩]

theorem genesisTable_bls (keys : List (NodeId × BlsPublicKey)) :
    GenesisTable (BlsKeyHistory.withGenesis keys).byStableId := by
  intro id entries he
  rw [get?_withGenesis] at he
  obtain ⟨key, -, rfl⟩ := Option.map_eq_some_iff.mp he
  exact ⟨key, rfl⟩

theorem genesisTable_operator (keys : List (ValidatorId × NodeId)) :
    GenesisTable (OperatorKeyHistory.withGenesis keys).byStableId := by
  intro id entries he
  have hget := (get?_registerAll ∅ 0 keys id).symm.trans he
  rw [Table.get?_empty, Option.none_or] at hget
  obtain ⟨key, -, rfl⟩ := Option.map_eq_some_iff.mp hget
  exact ⟨key, rfl⟩

theorem GenesisTable.keepsGenesis {t : Table NodeId (List KeyEntry)} (h : GenesisTable t) :
    KeepsGenesis t t := by
  intro id
  cases hget : t.get? id with
  | none => rfl
  | some entries =>
    obtain ⟨key, rfl⟩ := h id entries hget
    rfl

theorem keptByEdits_keepsGenesis (genesis : Table NodeId (List KeyEntry)) :
    KeptByEdits (KeepsGenesis genesis) where
  register := by
    intro t id vEff key hv hget h id'
    rw [Table.get?_insert]
    split_ifs with hid
    · have hbefore := h id
      have hzero : ¬ vEff = 0 := by omega
      rw [hget] at hbefore
      rw [hid, ← hbefore, Option.getD_some, List.filter_cons_of_neg (by simpa using hzero)]
      rfl
    · exact h id'
  append := by
    intro t id entries last vEff key hget _ hlt h id'
    rw [Table.get?_insert]
    split_ifs with hid
    · have hbefore := h id
      have hzero : ¬ vEff = 0 := by omega
      rw [hget, Option.getD_some] at hbefore
      rw [hid, ← hbefore, Option.getD_some, List.filter_append,
        List.filter_cons_of_neg (by simpa using hzero), List.filter_nil, List.append_nil]
    · exact h id'
  cancel := by
    intro t id entries last hget hl hv h id'
    rw [Table.get?_insert]
    split_ifs with hid
    · have hbefore := h id
      have hsplit := List.dropLast_append_getLast? last hl
      have hzero : ¬ last.vEff = 0 := by omega
      rw [hget, Option.getD_some, ← hsplit, List.filter_append,
        List.filter_cons_of_neg (by simpa using hzero), List.filter_nil,
        List.append_nil] at hbefore
      rw [hid, ← hbefore, Option.getD_some]
    · exact h id'

/-- What the check keeps of each id. -/
def genesisEntries (e : NodeId × List KeyEntry) : Option (NodeId × List KeyEntry) :=
  let entries := e.2.filter (·.vEff = 0)
  if entries.isEmpty then none else some (e.1, entries.take 1)

theorem genesisEntries_eq_some {e x : NodeId × List KeyEntry} (h : genesisEntries e = some x) :
    e.2.filter (·.vEff = 0) ≠ [] ∧ x = (e.1, (e.2.filter (·.vEff = 0)).take 1) := by
  unfold genesisEntries at h
  simp only at h
  split_ifs at h with hempty
  exact ⟨by simpa using hempty, (Option.some.inj h).symm⟩

theorem genesisOnly_persistKeys (t : Table NodeId (List KeyEntry)) :
    genesisOnly (persistKeys t) =
      ⟨((sortedEntries t).filterMap genesisEntries).map fun e => ⟨e.1, e.2⟩⟩ := by
  unfold genesisOnly persistKeys
  congr 1
  rw [List.filterMap_map, List.map_filterMap]
  apply List.filterMap_congr
  intro e _
  unfold genesisEntries
  simp only [Function.comp]
  split_ifs <;> rfl

theorem mem_genesisEntries {t genesis : Table NodeId (List KeyEntry)}
    (hg : GenesisTable genesis) (h : KeepsGenesis genesis t) (id : NodeId)
    (entries : List KeyEntry) : (id, entries) ∈ (sortedEntries t).filterMap genesisEntries ↔
      genesis.get? id = some entries := by
  have hid := h id
  rw [List.mem_filterMap]
  constructor
  · rintro ⟨⟨id', es⟩, hmem, he⟩
    obtain ⟨hne, hpair⟩ := genesisEntries_eq_some he
    have hsame : id' = id := (congrArg Prod.fst hpair).symm
    have hentries : (es.filter (·.vEff = 0)).take 1 = entries := (congrArg Prod.snd hpair).symm
    rw [hsame, mem_sortedEntries] at hmem
    rw [hmem, Option.getD_some] at hid
    cases hget : genesis.get? id with
    | none =>
      rw [hget] at hid
      exact absurd hid hne
    | some gs =>
      obtain ⟨key, hkey⟩ := hg id gs hget
      rw [hget, Option.getD_some] at hid
      rw [← hentries, hid, hkey]
      rfl
  · intro hget
    obtain ⟨key, hkey⟩ := hg id entries hget
    rw [hget, Option.getD_some] at hid
    cases hstored : t.get? id with
    | none =>
      rw [hstored, hkey] at hid
      cases hid
    | some es =>
      rw [hstored, Option.getD_some] at hid
      refine ⟨(id, es), mem_sortedEntries.mpr hstored, ?_⟩
      unfold genesisEntries
      simp only [hid, hkey]
      rfl

/-- The seed of a table of keys is the genesis table that it goes back to. -/
theorem restoreKeys_genesisOnly {t genesis : Table NodeId (List KeyEntry)}
    (hg : GenesisTable genesis) (h : KeepsGenesis genesis t) :
    ∃ t', restoreKeys (genesisOnly (persistKeys t)) = .ok t' ∧ t'.Same genesis := by
  have hlisted := mem_genesisEntries hg h
  have hnodup : (((sortedEntries t).filterMap genesisEntries).map Prod.fst).Nodup := by
    have hall := List.pairwise_map.mp (nodup_sortedEntries t)
    apply List.pairwise_map.mpr
    apply hall.filterMap
    intro e e' hne x hx x' hx'
    rw [(genesisEntries_eq_some hx).2, (genesisEntries_eq_some hx').2]
    exact hne
  rw [genesisOnly_persistKeys]
  obtain ⟨t', hfold, hholds⟩ := restoreKeys_listed hnodup (by
    intro e he
    obtain ⟨key, hkey⟩ := hg e.1 e.2 ((hlisted e.1 e.2).mp he)
    rw [hkey]
    exact ⟨by simp, List.pairwise_singleton _ _⟩) ∅
  refine ⟨t', hfold, ?_⟩
  intro id
  cases hget : genesis.get? id with
  | some entries => exact hholds.1 _ ((hlisted id entries).mpr hget)
  | none =>
    rw [hholds.2, Table.get?_empty]
    intro hmem
    obtain ⟨e, he, rfl⟩ := List.mem_map.mp hmem
    have hlist := (hlisted e.1 e.2).mp he
    rw [hget] at hlist
    cases hlist

section
variable {P : Primitives} {E : CommitPrimitives} {cfg : NodeConfigForConsensus}

/-- The BLS and operator keys of a state, back at view zero, are those of genesis. -/
structure ChainState.Seeded (cfg : NodeConfigForConsensus) (s : ChainState) : Prop where
  bls : HasBls (KeepsGenesis (BlsKeyHistory.withGenesis cfg.genesisBls).byStableId)
    s.histories.bls
  operator : ∃ op ∈ s.histories.operator,
    KeepsGenesis (OperatorKeyHistory.withGenesis cfg.operatorKeys).byStableId op.byStableId

variable (P E) in
theorem ChainState.Seeded.reconfigure {s : ChainState} (h : s.Seeded cfg) (block : Block) :
    (s.reconfigure P E cfg block).Seeded cfg := by
  unfold ChainState.reconfigure
  cases hc : blockChange E.toReconfigPrimitives cfg.minVEffDelay (cfg.chainId P) s.histories.set
    block with
  | none => exact h
  | some change =>
    have hv := vEff_pos_of_blockChange hc
    obtain ⟨op, hop, ho⟩ := h.operator
    have hregistered : KeepsGenesis (OperatorKeyHistory.withGenesis cfg.operatorKeys).byStableId
        (registerOperators op change.1 change.2).byStableId := by
      rw [registerOperators_eq]
      exact (keptByEdits_keepsGenesis _).registerAll hv _ ho
    exact ⟨(keptByEdits_keepsGenesis _).registerBls h.bls hv change.2,
      ⟨_, Option.map_eq_some_iff.mpr ⟨op, hop, rfl⟩, hregistered⟩⟩

theorem ChainState.Seeded.commit {s : ChainState} (h : s.Seeded cfg) (block : Block) :
    (s.commit P E cfg block).Seeded cfg := by
  have hs := h.reconfigure P E block
  unfold ChainState.commit
  generalize s.reconfigure P E cfg block = t at hs
  obtain ⟨op, hop, ho⟩ := hs.operator
  have hedits := keptByEdits_keepsGenesis (BlsKeyHistory.withGenesis cfg.genesisBls).byStableId
  have hedits' := keptByEdits_keepsGenesis
    (OperatorKeyHistory.withGenesis cfg.operatorKeys).byStableId
  constructor
  · exact rotated_keeps E.toHistoryPrimitives (cfg.chainId P) (Q := fun _ bls => HasBls _ bls)
      (fun _ _ hq => hedits.rotateBls hq _ _) (fun _ _ hq => hedits.cancelBls hq _ _ _) block hs.bls
  · simp only [applyRotationCommandsToHistories_eq E.toHistoryPrimitives (cfg.chainId P) block
      t.histories op hop]
    exact ⟨_, rfl, applyOperatorKeyRotations_keeps (fun ha ho => hedits'.appendEntry ha ho) _ _
      block ho⟩

theorem seeded_ofChain (chain : List Block) : (ChainState.ofChain P E cfg chain).Seeded cfg := by
  unfold ChainState.ofChain
  induction chain using List.reverseRecOn with
  | nil =>
    exact ⟨⟨_, rfl, (genesisTable_bls cfg.genesisBls).keepsGenesis⟩,
      ⟨_, rfl, (genesisTable_operator cfg.operatorKeys).keepsGenesis⟩⟩
  | append_singleton chain block ih =>
    rw [List.foldl_append, List.foldl_cons, List.foldl_nil]
    exact ih.commit block

/-- A node with the histories of a chain rebuilds from those of genesis. -/
theorem rebuildSeed_of_alike {n : ConsensusNode} {chain : List Block}
    (ha : (ChainState.ofChain P E cfg chain).histories.Alike n.histories) :
    ∃ seed, n.rebuildSeed = .ok seed ∧ seed.Alike cfg.toNodeConfig.genesisHistories := by
  have hsound : (ChainState.ofChain P E cfg chain).Sound cfg := ChainState.sound_ofChain chain
  have hseeded : (ChainState.ofChain P E cfg chain).Seeded cfg := seeded_ofChain chain
  have hkeeps : ∀ {genesis t t' : Table NodeId (List KeyEntry)}, t.Same t' →
      KeepsGenesis genesis t → KeepsGenesis genesis t' := by
    intro genesis t t' hs h id
    rw [← hs id]
    exact h id
  obtain ⟨bls, hbls, hb⟩ := hseeded.bls.congr ha.bls hkeeps
  obtain ⟨blsTable, hblsOk, hblsSame⟩ :=
    restoreKeys_genesisOnly (genesisTable_bls cfg.genesisBls) hb
  have hop : KeepsGenesis (OperatorKeyHistory.withGenesis cfg.operatorKeys).byStableId
      n.operatorKeyHistory.byStableId := by
    obtain ⟨op, hop, ho⟩ := hseeded.operator
    have hrel := ha.operator
    rw [Option.mem_def.mp hop] at hrel
    cases hrel with
    | some hs => exact hkeeps hs ho
  obtain ⟨opTable, hopOk, hopSame⟩ :=
    restoreKeys_genesisOnly (genesisTable_operator cfg.operatorKeys) hop
  obtain ⟨rest, hrest⟩ := hsound.startsFrom
  have hset : n.validatorHistory = (ChainState.ofChain P E cfg chain).histories.set := ha.set.symm
  have hhead : n.validatorHistory.iter.head?.map (fun b => b.2.iterWeighted) =
      some cfg.validatorSet.iterWeighted := by
    rw [hset, ValidatorSetHistory.iter, hrest]
    rfl
  refine ⟨⟨.fromGenesis cfg.validatorSet, .new cfg.validatorSet.members, some ⟨blsTable⟩,
    some ⟨opTable⟩⟩, ?_, ?_⟩
  · unfold rebuildSeed
    refine bind_eq_ok.mpr ⟨_, okOr_eq_ok.mpr hhead, bind_eq_ok.mpr ⟨_, mapError_eq_ok.mpr
      (ValidatorSet.withWeights_iterWeighted _), bind_eq_ok.mpr ⟨some ⟨blsTable⟩, ?_,
        bind_eq_ok.mpr ⟨⟨opTable⟩, ?_, rfl⟩⟩⟩⟩
    · have hnode : n.blsKeyHistory = some bls := hbls
      rw [hnode]
      show (genesisOnlyBlsSeed bls).map some = _
      unfold genesisOnlyBlsSeed BlsKeyHistory.fromPersisted BlsKeyHistory.toPersisted
      rw [hblsOk]
      rfl
    · unfold genesisOnlyOperatorSeed OperatorKeyHistory.fromPersisted
        OperatorKeyHistory.toPersisted
      rw [hopOk]
      rfl
  · constructor
    · rfl
    · have hkey := fromSetHistory_fromGenesis cfg.validatorSet
      show (ValidatorKeyHistory.new cfg.validatorSet.members).Alike
        (.fromSetHistory (.fromGenesis cfg.validatorSet))
      rw [hkey]
      exact ⟨.refl _, .refl _⟩
    · exact .some hblsSame
    · exact .some hopSame

/-! ### The replay and the running node -/

variable (P E cfg) in
/-- A change of the block seats members only that the key history knows. -/
def SeatsKnown (s : ChainState) (block : Block) : Prop :=
  ∀ change ∈ blockChange E.toReconfigPrimitives cfg.minVEffDelay (cfg.chainId P) s.histories.set
    block, ∀ m ∈ change.2.members, s.histories.key.Knows m

/-- The running node takes such a block as the replay does. -/
theorem histories_commit_of_known {s : ChainState} {block : Block}
    (h : SeatsKnown P E cfg s block) : (s.commit P E cfg block).histories =
      replayBlock E.toHistoryPrimitives cfg.minVEffDelay (cfg.chainId P) s.histories block := by
  have hreconfigured : (s.reconfigure P E cfg block).histories =
      applyReconfigCommandsToSetHistory E.toHistoryPrimitives cfg.minVEffDelay (cfg.chainId P)
        block s.histories := by
    rw [applyReconfigCommandsToSetHistory_eq]
    unfold ChainState.reconfigure
    cases hc : blockChange E.toReconfigPrimitives cfg.minVEffDelay (cfg.chainId P)
      s.histories.set block with
    | none => rfl
    | some change =>
      have hkey := seatMembers_of_knows (h change hc) change.1.vEff
      show (s.change change.1 change.2).histories = s.histories.reconfigured change.1 change.2
      unfold ChainState.change Histories.reconfigured
      rw [hkey]
  exact congrArg (applyRotationCommandsToHistories _ _ block) hreconfigured

theorem ofChain_concat (chain : List Block) (block : Block) :
    ChainState.ofChain P E cfg (chain ++ [block]) =
      (ChainState.ofChain P E cfg chain).commit P E cfg block := by
  unfold ChainState.ofChain
  rw [List.foldl_append]
  rfl

theorem replay_concat (R : HistoryPrimitives) (cfg : NodeConfig) (chain : List Block)
    (block : Block) : cfg.replay P R (chain ++ [block]) =
      replayBlock R cfg.minVEffDelay (cfg.chainId P) (cfg.replay P R chain) block := by
  unfold NodeConfig.replay
  rw [List.foldl_append]
  rfl

theorem replay_append (R : HistoryPrimitives) (cfg : NodeConfig) (chain chain' : List Block) :
    chain'.foldl (replayBlock R cfg.minVEffDelay (cfg.chainId P)) (cfg.replay P R chain) =
      cfg.replay P R (chain ++ chain') :=
  List.foldl_append.symm

/-- Up to a block before which all changes seat known members, the replay is the state of the
running node. -/
theorem histories_take_of_known {chain : List Block} {k : ℕ}
    (h : ∀ j < k, ∀ b, chain[j]? = some b →
      SeatsKnown P E cfg (.ofChain P E cfg (chain.take j)) b) :
    (ChainState.ofChain P E cfg (chain.take k)).histories =
      cfg.toNodeConfig.replay P E.toHistoryPrimitives (chain.take k) := by
  induction k with
  | zero => rfl
  | succ k ih =>
    have hbefore := ih fun j hj => h j (by omega)
    cases hk : chain[k]? with
    | none =>
      have hlen := List.getElem?_eq_none_iff.mp hk
      rw [List.take_of_length_le hlen] at hbefore
      rw [List.take_of_length_le (by omega)]
      exact hbefore
    | some b =>
      have hnext : chain.take (k + 1) = chain.take k ++ [b] := by
        rw [List.take_add_one, hk]
        rfl
      have hknown := h k (by omega) b hk
      rw [hnext, ofChain_concat, replay_concat, histories_commit_of_known hknown, hbefore]

/-- The running node gives no id an entry that it did not have. -/
theorem containsKey_commit (s : ChainState) (block : Block) :
    (s.commit P E cfg block).histories.key.byStableId.containsKey =
      s.histories.key.byStableId.containsKey := by
  have hids := congrArg Prod.fst (ids_applyRotationCommandsToHistories E.toHistoryPrimitives
    (cfg.chainId P) block (s.reconfigure P E cfg block).histories)
  refine hids.trans ?_
  unfold ChainState.reconfigure
  split <;> rfl

variable (P E cfg) in
theorem containsKey_ofChain (chain : List Block) :
    (ChainState.ofChain P E cfg chain).histories.key.byStableId.containsKey =
      cfg.toNodeConfig.genesisHistories.key.byStableId.containsKey :=
  foldl_keeps (f := fun s : ChainState => s.histories.key.byStableId.containsKey)
    containsKey_commit _ chain

/-- The replay keeps the ids with entries. -/
theorem containsKey_replayBlock {R : HistoryPrimitives} {minVEffDelay : ℕ} {chainId : ChainId}
    {h : Histories} {id : NodeId} (hk : h.key.byStableId.containsKey id = true) (block : Block) :
    (replayBlock R minVEffDelay chainId h block).key.byStableId.containsKey id = true := by
  have hids := congrArg Prod.fst (ids_applyRotationCommandsToHistories R chainId block
    (applyReconfigCommandsToSetHistory R minVEffDelay chainId block h))
  refine (congrFun hids id).trans ?_
  rw [applyReconfigCommandsToSetHistory_eq]
  cases blockChange R.toReconfigPrimitives minVEffDelay chainId h.set block with
  | none => exact hk
  | some change => exact containsKey_seatMembers hk _ _

theorem containsKey_foldl_replay {R : HistoryPrimitives} {minVEffDelay : ℕ} {chainId : ChainId}
    {h : Histories} {id : NodeId} (hk : h.key.byStableId.containsKey id = true)
    (chain : List Block) : (chain.foldl (replayBlock R minVEffDelay chainId)
      h).key.byStableId.containsKey id = true := by
  induction chain generalizing h with
  | nil => exact hk
  | cons block chain ih => exact ih (containsKey_replayBlock hk block)

/-- A newcomer has an entry after the replay. -/
theorem containsKey_replayBlock_of_unknown {R : HistoryPrimitives} {minVEffDelay : ℕ}
    {chainId : ChainId} {h : Histories} {block : Block} {change : ReconfigCommand × ValidatorSet}
    (hc : blockChange R.toReconfigPrimitives minVEffDelay chainId h.set block = some change)
    {m : ValidatorId} (hm : m ∈ change.2.members) (hk : ¬ h.key.Knows m) :
    (replayBlock R minVEffDelay chainId h block).key.byStableId.containsKey m = true := by
  have hids := congrArg Prod.fst (ids_applyRotationCommandsToHistories R chainId block
    (applyReconfigCommandsToSetHistory R minVEffDelay chainId block h))
  refine (congrFun hids m).trans ?_
  rw [applyReconfigCommandsToSetHistory_eq, hc]
  exact containsKey_seatMembers_of_mem hm hk _

/-- Where both end with the same entries, every change has seated members that were known. -/
theorem known_of_same {chain : List Block}
    (hsame : (ChainState.ofChain P E cfg chain).histories.key.byStableId.Same
      (cfg.toNodeConfig.replay P E.toHistoryPrimitives chain).key.byStableId) :
    ∀ k b, chain[k]? = some b → SeatsKnown P E cfg (.ofChain P E cfg (chain.take k)) b := by
  intro k
  induction k using Nat.strong_induction_on with
  | _ k ih =>
    intro b hk change hc m hm
    by_contra hunknown
    have hbefore := histories_take_of_known ih
    have hnext : chain.take (k + 1) = chain.take k ++ [b] := by
      rw [List.take_add_one, hk]
      rfl
    -- the replay seats the newcomer for good
    have hreplayed : (cfg.toNodeConfig.replay P E.toHistoryPrimitives
        chain).key.byStableId.containsKey m = true := by
      rw [← List.take_append_drop (k + 1) chain, hnext, ← replay_append, replay_concat]
      apply containsKey_foldl_replay
      rw [← hbefore]
      exact containsKey_replayBlock_of_unknown hc hm hunknown
    have hlive := (congrFun (containsKey_ofChain P E cfg chain) m).trans
      (congrFun (containsKey_ofChain P E cfg (chain.take k)) m).symm
    rw [hsame.containsKey m, hreplayed] at hlive
    exact hunknown (.inl hlive.symm)

/-! ### Stamps -/

variable (P E cfg) in
/-- The block is what a leader proposes that holds the histories of these blocks. -/
def StampedBy (V : Verifier) (committed : List Block) (block : Block) : Prop :=
  ∃ (leader : ConsensusNode) (p : Proposal),
    (ChainState.ofChain P E cfg committed).histories.Alike leader.histories ∧
      (stampProposal (V.overHistories E.toHistoryPrimitives) cfg.toNodeConfig P leader
        p).block = block

/-- A leader that has just started from an empty store has committed nothing. -/
theorem stampedBy_of_fresh {V : Verifier} {leader : ConsensusNode}
    (hleader : recover P cfg.toNodeConfig .empty = some leader) (p : Proposal) :
    StampedBy P E cfg V [] (stampProposal (V.overHistories E.toHistoryPrimitives)
      cfg.toNodeConfig P leader p).block := by
  have hfresh : CommitSystem.fresh.Durable P E cfg := CommitSystem.durable_fresh
  obtain ⟨-, first, hfirst, hreflects⟩ := hfresh.stopped rfl
  have hnode := (recover_of_recoverRunning hfirst).symm.trans hleader
  have halike : (ChainState.ofChain P E cfg []).histories.Alike first.node.histories :=
    hreflects.state.symm.histories
  rw [Option.some.inj hnode] at halike
  exact ⟨leader, p, halike, rfl⟩

theorem commitment_of_stamped {V : Verifier} {committed : List Block} {block : Block}
    (h : StampedBy P E cfg V committed block) : block.header.validatorHistoryCommitment =
      validatorHistoryCommitmentV2 E.toHistoryPrimitives (replayBlock E.toHistoryPrimitives
        cfg.minVEffDelay (cfg.chainId P) (ChainState.ofChain P E cfg committed).histories
        block) := by
  obtain ⟨leader, p, ha, rfl⟩ := h
  exact (commitment_eq_of_alike E.toHistoryPrimitives (ha.replayBlock p.block)).symm

/-- Commitments tell histories with operator keys apart. -/
theorem commitment_eq_iff {R : HistoryPrimitives} (hfree : R.CollisionFree) {h h' : Histories}
    (hop : h.operator.isSome) (hop' : h'.operator.isSome) :
    validatorHistoryCommitmentV2 R h = validatorHistoryCommitmentV2 R h' ↔
      h.toPersisted = h'.toPersisted := by
  obtain ⟨op, hop⟩ := Option.isSome_iff_exists.mp hop
  obtain ⟨op', hop'⟩ := Option.isSome_iff_exists.mp hop'
  unfold validatorHistoryCommitmentV2 Histories.toPersisted
  rw [hop, hop']
  constructor
  · intro hc
    obtain ⟨hset, hkey, hbls, hoperator⟩ := hfree _ _ _ _ _ _ _ _ hc
    have hsame : op.toPersisted = op'.toPersisted := hoperator
    rw [hset, hkey, hbls, Option.map_some, Option.map_some, hsame]
  · intro he
    obtain ⟨hset, hkey, hbls, hoperator⟩ := PersistedHistories.mk.inj he
    rw [hset, hkey, hbls, hoperator]

theorem foldlM_rebuildBlock_iff {R : HistoryPrimitives} {cfg : NodeConfig} {chain : List Block}
    {seed rebuilt : Histories} : chain.foldlM (rebuildBlock P R cfg) seed = .ok rebuilt ↔
      rebuilt = chain.foldl (replayBlock R cfg.minVEffDelay (cfg.chainId P)) seed ∧
      ∀ k b, chain[k]? = some b → b.header.validatorHistoryCommitment =
        validatorHistoryCommitmentV2 R (replayBlock R cfg.minVEffDelay (cfg.chainId P)
          ((chain.take k).foldl (replayBlock R cfg.minVEffDelay (cfg.chainId P)) seed) b) := by
  induction chain generalizing seed with
  | nil =>
    constructor
    · intro h
      exact ⟨(Except.ok.inj h).symm, by simp⟩
    · rintro ⟨rfl, -⟩
      rfl
  | cons block chain ih =>
    rw [List.foldlM_cons]
    constructor
    · intro h
      obtain ⟨next, hblock, h⟩ := bind_eq_ok.mp h
      obtain ⟨_, hclaimed, hblock⟩ := bind_eq_ok.mp hblock
      obtain rfl := Except.ok.inj hblock
      obtain ⟨hrebuilt, hrest⟩ := ih.mp h
      refine ⟨hrebuilt, ?_⟩
      intro k b hk
      cases k with
      | zero =>
        obtain rfl := Option.some.inj hk
        exact of_decide_eq_true (require_eq_ok.mp hclaimed)
      | succ k => exact hrest k b hk
    · rintro ⟨rfl, hall⟩
      have hfirst := hall 0 block rfl
      refine bind_eq_ok.mpr ⟨_, bind_eq_ok.mpr ⟨(), require_eq_ok.mpr (decide_eq_true hfirst), rfl⟩,
        ih.mpr ⟨rfl, fun k b hk => hall (k + 1) b hk⟩⟩

theorem compareHistories_eq_ok {n : ConsensusNode} {rebuilt : Histories}
    (hset : n.validatorHistory.toPersisted = rebuilt.set.toPersisted)
    (hkey : n.validatorKeyHistory.toPersisted = rebuilt.key.toPersisted)
    (hbls : n.blsKeyHistory.map BlsKeyHistory.toPersisted =
      rebuilt.bls.map BlsKeyHistory.toPersisted) : n.compareHistories rebuilt = .ok () := by
  unfold compareHistories
  refine bind_eq_ok.mpr ⟨(), require_eq_ok.mpr (decide_eq_true hset), bind_eq_ok.mpr ⟨(),
    require_eq_ok.mpr (decide_eq_true hkey), ?_⟩⟩
  cases hn : n.blsKeyHistory with
  | none =>
    cases hr : rebuilt.bls with
    | none => rfl
    | some b =>
      rw [hn, hr] at hbls
      cases hbls
  | some loaded =>
    cases hr : rebuilt.bls with
    | none =>
      rw [hn, hr] at hbls
      cases hbls
    | some b =>
      rw [hn, hr] at hbls
      exact require_eq_ok.mpr (decide_eq_true (Option.some.inj hbls))

variable (P E cfg) in
/-- Changes seat known members only, and the block's commands make of its leader's histories what
they make of those of all its ancestors. -/
def Settles (lags : ℕ → ℕ) (chain : List Block) : Prop :=
  ∀ k b, chain[k]? = some b → SeatsKnown P E cfg (.ofChain P E cfg (chain.take k)) b ∧
    (replayBlock E.toHistoryPrimitives cfg.minVEffDelay (cfg.chainId P)
      (ChainState.ofChain P E cfg (chain.take (lags k))).histories b).toPersisted =
    (replayBlock E.toHistoryPrimitives cfg.minVEffDelay (cfg.chainId P)
      (ChainState.ofChain P E cfg (chain.take k)).histories b).toPersisted

theorem isSome_operator_replayBlock {R : HistoryPrimitives} {minVEffDelay : ℕ}
    {chainId : ChainId} {h : Histories} (hop : h.operator.isSome) (block : Block) :
    (replayBlock R minVEffDelay chainId h block).operator.isSome := by
  have hids := ids_applyRotationCommandsToHistories R chainId block
    (applyReconfigCommandsToSetHistory R minVEffDelay chainId block h)
  have hsome := congrArg (fun i => i.2.2.isSome) hids
  simp only [Histories.ids, Option.isSome_map] at hsome
  refine hsome.trans ?_
  rw [applyReconfigCommandsToSetHistory_eq]
  cases blockChange R.toReconfigPrimitives minVEffDelay chainId h.set block with
  | none => exact hop
  | some change => exact Option.isSome_map.trans hop

theorem isSome_operator_foldl {R : HistoryPrimitives} {minVEffDelay : ℕ} {chainId : ChainId}
    {h : Histories} (hop : h.operator.isSome) (chain : List Block) :
    (chain.foldl (replayBlock R minVEffDelay chainId) h).operator.isSome := by
  induction chain generalizing h with
  | nil => exact hop
  | cons block chain ih => exact ih (isSome_operator_replayBlock hop block)

theorem isSome_operator_ofChain (chain : List Block) :
    (ChainState.ofChain P E cfg chain).histories.operator.isSome := by
  have hsound : (ChainState.ofChain P E cfg chain).Sound cfg := ChainState.sound_ofChain chain
  obtain ⟨op, hop, -⟩ := hsound.operator
  exact Option.isSome_iff_exists.mpr ⟨op, hop⟩

theorem computeGenesisCommitment_eq (R : HistoryPrimitives) (cfg : NodeConfig) :
    cfg.computeGenesisCommitment R = validatorHistoryCommitmentV2 R cfg.genesisHistories := by
  have hkey := fromSetHistory_fromGenesis cfg.validatorSet
  unfold NodeConfig.computeGenesisCommitment NodeConfig.genesisHistories
    validatorHistoryCommitmentV2
  rw [hkey]
  cases cfg.operatorKeys <;> rfl

/-- A stamp commits to the histories that the block makes of those of its leader, and to no
others. -/
theorem stamp_eq_iff (hfree : E.toHistoryPrimitives.CollisionFree) {V : Verifier}
    {committed : List Block} {block : Block} (hstamped : StampedBy P E cfg V committed block)
    {h : Histories} (hop : h.operator.isSome) :
    block.header.validatorHistoryCommitment =
        validatorHistoryCommitmentV2 E.toHistoryPrimitives h ↔
      (replayBlock E.toHistoryPrimitives cfg.minVEffDelay (cfg.chainId P)
        (ChainState.ofChain P E cfg committed).histories block).toPersisted = h.toPersisted := by
  rw [commitment_of_stamped hstamped]
  exact commitment_eq_iff hfree
    (isSome_operator_replayBlock (isSome_operator_ofChain committed) block) hop

/-- The rebuild accepts a stamp when the leader's histories and the replay lead to the same ones. -/
theorem stamp_accepted_iff (hfree : E.toHistoryPrimitives.CollisionFree) {V : Verifier}
    {committed before : List Block} {block : Block} (hstamped : StampedBy P E cfg V committed block)
    {seed : Histories} (hseed : seed.Alike cfg.toNodeConfig.genesisHistories) :
    block.header.validatorHistoryCommitment = validatorHistoryCommitmentV2 E.toHistoryPrimitives
        (replayBlock E.toHistoryPrimitives cfg.minVEffDelay (cfg.chainId P)
          (before.foldl (replayBlock E.toHistoryPrimitives cfg.minVEffDelay (cfg.chainId P)) seed)
          block) ↔
      (replayBlock E.toHistoryPrimitives cfg.minVEffDelay (cfg.chainId P)
        (ChainState.ofChain P E cfg committed).histories block).toPersisted =
      (replayBlock E.toHistoryPrimitives cfg.minVEffDelay (cfg.chainId P)
        (cfg.toNodeConfig.replay P E.toHistoryPrimitives before) block).toPersisted := by
  have hrebuilt : (before.foldl (replayBlock E.toHistoryPrimitives cfg.minVEffDelay
      (cfg.chainId P)) seed).Alike (cfg.toNodeConfig.replay P E.toHistoryPrimitives before) :=
    alike_foldl_replayBlock hseed before
  have hop : (cfg.toNodeConfig.replay P E.toHistoryPrimitives before).operator.isSome :=
    isSome_operator_foldl (h := cfg.toNodeConfig.genesisHistories) rfl before
  rw [commitment_eq_of_alike _ (hrebuilt.replayBlock block)]
  exact stamp_eq_iff hfree hstamped (isSome_operator_replayBlock hop block)

/-- The check of a stamped chain, for a node that has its histories. -/
theorem checkChain_iff_settles (hfree : E.toHistoryPrimitives.CollisionFree)
    (hgenesis : cfg.genesisHistoryCommitment =
      cfg.toNodeConfig.computeGenesisCommitment E.toHistoryPrimitives)
    {V : Verifier} {lags : ℕ → ℕ} {chain : List Block}
    (hstamped : ∀ k b, chain[k]? = some b → StampedBy P E cfg V (chain.take (lags k)) b)
    {n : ConsensusNode} (ha : (ChainState.ofChain P E cfg chain).histories.Alike n.histories)
    (hroot : n.core.state.genesisHash = (cfg.genesis P).hash P) :
    n.checkChain P E.toHistoryPrimitives cfg.toNodeConfig (cfg.genesis P :: chain) = .ok () ↔
      Settles P E cfg lags chain := by
  obtain ⟨seed, hseed, hseedAlike⟩ := rebuildSeed_of_alike ha
  have hrebuilt : (chain.foldl (replayBlock E.toHistoryPrimitives cfg.minVEffDelay
      (cfg.chainId P)) seed).Alike (cfg.toNodeConfig.replay P E.toHistoryPrimitives chain) :=
    alike_foldl_replayBlock hseedAlike chain
  have hfirst : rebuildBlock P E.toHistoryPrimitives cfg.toNodeConfig seed (cfg.genesis P) =
      .ok seed := by
    have hsame : replayBlock E.toHistoryPrimitives cfg.minVEffDelay (cfg.chainId P) seed
        (cfg.genesis P) = seed := replayBlock_of_no_commands _ _ _ seed rfl
    have hpinned : (cfg.genesis P).header.validatorHistoryCommitment =
        validatorHistoryCommitmentV2 E.toHistoryPrimitives seed := by
      have hheader : (cfg.genesis P).header.validatorHistoryCommitment =
          cfg.genesisHistoryCommitment := rfl
      rw [hheader, hgenesis, computeGenesisCommitment_eq]
      exact commitment_eq_of_alike _ hseedAlike.symm
    unfold rebuildBlock
    simp only [hsame]
    exact bind_eq_ok.mpr ⟨(), require_eq_ok.mpr (decide_eq_true hpinned), rfl⟩
  constructor
  · intro h
    obtain ⟨first, hhead, h⟩ := bind_eq_ok.mp h
    obtain ⟨_, -, h⟩ := bind_eq_ok.mp h
    obtain ⟨seed', hseed', h⟩ := bind_eq_ok.mp h
    obtain ⟨rebuilt, hfold, hcompare⟩ := bind_eq_ok.mp h
    rw [Except.ok.inj (hseed'.symm.trans hseed), List.foldlM_cons] at hfold
    obtain ⟨next, hnext, hrest⟩ := bind_eq_ok.mp hfold
    rw [Except.ok.inj (hnext.symm.trans hfirst)] at hrest
    obtain ⟨hfinal, hstamps⟩ := foldlM_rebuildBlock_iff.mp hrest
    have hkey := (persisted_of_compareHistories hcompare).2.1
    rw [hfinal] at hkey
    have hsame : (ChainState.ofChain P E cfg chain).histories.key.byStableId.Same
        (cfg.toNodeConfig.replay P E.toHistoryPrimitives chain).key.byStableId :=
      ha.key.entries.trans ((same_of_persistKeys hkey).trans hrebuilt.key.entries)
    have hknown := known_of_same hsame
    intro k b hk
    refine ⟨hknown k b hk, ?_⟩
    rw [histories_take_of_known (k := k) fun j _ => hknown j]
    exact (stamp_accepted_iff hfree (hstamped k b hk) hseedAlike).mp (hstamps k b hk)
  · intro h
    have hlive : ∀ k, (ChainState.ofChain P E cfg (chain.take k)).histories =
        cfg.toNodeConfig.replay P E.toHistoryPrimitives (chain.take k) :=
      fun k => histories_take_of_known fun j _ b hj => (h j b hj).1
    have hend := hlive chain.length
    rw [List.take_length] at hend
    have hfinal : n.histories.toPersisted = (chain.foldl (replayBlock E.toHistoryPrimitives
        cfg.minVEffDelay (cfg.chainId P)) seed).toPersisted := by
      rw [hrebuilt.toPersisted, ← hend]
      exact ha.symm.toPersisted
    obtain ⟨hset, hkey, hbls, -⟩ := PersistedHistories.mk.inj hfinal
    refine bind_eq_ok.mpr ⟨cfg.genesis P, rfl, bind_eq_ok.mpr ⟨(), require_eq_ok.mpr
      (decide_eq_true hroot.symm), bind_eq_ok.mpr ⟨seed, hseed, bind_eq_ok.mpr ⟨_, ?_,
        compareHistories_eq_ok hset hkey hbls⟩⟩⟩⟩
    rw [List.foldlM_cons]
    refine bind_eq_ok.mpr ⟨seed, hfirst, foldlM_rebuildBlock_iff.mpr ⟨rfl, fun k b hk => ?_⟩⟩
    refine (stamp_accepted_iff hfree (hstamped k b hk) hseedAlike).mpr ?_
    rw [(h k b hk).2, hlive k]

theorem genesisHash_replayBoundaries (c : HotStuffCore) (bs : List (ℕ × ValidatorSet)) :
    (replayBoundaries c bs).1.state.genesisHash = c.state.genesisHash := by
  induction bs generalizing c with
  | nil => rfl
  | cons b bs ih =>
    obtain ⟨vEff, set⟩ := b
    rw [replayBoundaries]
    split_ifs
    · exact ih c
    · cases hc : c.insertValidatorBoundary vEff set with
      | error e => rfl
      | ok c' =>
        obtain ⟨history, -, hsame⟩ := bind_eq_ok.mp hc
        simp only
        rw [ih, ← Except.ok.inj hsame]

theorem genesisHash_recover {cfg : NodeConfig} {storage : Storage} {n : ConsensusNode}
    (h : recover P cfg storage = some n) :
    n.core.state.genesisHash = (cfg.genesis P).hash P := by
  have hstate : (recoverState P storage cfg.validatorSet (cfg.genesis P)).genesisHash =
      (cfg.genesis P).hash P := by
    apply recoverState_invariant (I := fun s => s.genesisHash = (cfg.genesis P).hash P)
    · intro s b _ _ hs
      rw [HotStuffState.insertPending_genesisHash]
      exact hs
    · rfl
  have hsame := genesisHash_replayBoundaries (startingCore P cfg storage) n.validatorHistory.iter
  rw [(recovered_of_recover h).core] at hsame
  exact hsame.trans hstate

/-- After a run whose stops lose nothing, the check accepts a stored chain of stamped blocks
exactly when no change seats a newcomer and no leader's lag shows in its stamp. -/
theorem stamped_chain_accepted_iff (hfree : E.toHistoryPrimitives.CollisionFree)
    (hgenesis : cfg.genesisHistoryCommitment =
      cfg.toNodeConfig.computeGenesisCommitment E.toHistoryPrimitives)
    {inputs : List CommitInput}
    (h : Along (CommitSystem.step P E cfg) (CommitSystem.EndsSafely P cfg) .fresh inputs)
    {s : CommitSystem} (hs : s = run (CommitSystem.step P E cfg) .fresh inputs)
    (hstopped : s.node = none) {V : Verifier} {lags : ℕ → ℕ}
    (hstamped : ∀ k b, s.chain[k]? = some b → StampedBy P E cfg V (s.chain.take (lags k)) b) :
    ∃ r, recoverRunning P cfg s.store = some r ∧ ∀ bound,
      r.node.StoredChain P cfg.toNodeConfig s.store.storage bound (cfg.genesis P :: s.chain) →
      (r.node.verifyPersistedHistoryConsistency P E.toHistoryPrimitives cfg.toNodeConfig
        s.store.storage bound = some (.ok ()) ↔ Settles P E cfg lags s.chain) := by
  have hdurable := CommitSystem.durable_run h
  rw [← hs] at hdurable
  obtain ⟨-, r, hr, hreflects⟩ := hdurable.stopped hstopped
  refine ⟨r, hr, fun bound hchain => ?_⟩
  have hcheck := checkChain_iff_settles hfree hgenesis hstamped hreflects.state.symm.histories
    (genesisHash_recover (recover_of_recoverRunning hr))
  have hnothing : cfg.genesis P :: s.chain = [cfg.genesis P] → Settles P E cfg lags s.chain := by
    intro hnil k b hk
    rw [(List.cons.inj hnil).2] at hk
    cases hk
  unfold StoredChain at hchain
  unfold verifyPersistedHistoryConsistency
  cases hlast : s.store.storage.lastCommitted with
  | none =>
    rw [hlast] at hchain
    exact iff_of_true rfl (hnothing hchain)
  | some last =>
    rw [hlast] at hchain
    by_cases hzero : last.height = 0
    · simp only [if_pos hzero] at hchain ⊢
      exact iff_of_true trivial (hnothing hchain)
    · simp only [if_neg hzero] at hchain ⊢
      rw [hchain.1, Option.map_some, Option.some_inj]
      exact hcheck

end

namespace Sample

def pinnedDurable : NodeConfigForConsensus :=
  { pinned with
    minBlockIntervalMs := 100
    maxEndpointListLength := 4 }

/-- A block of view `view` on `parent` with the stamp of a leader. -/
def stampedOn (leader : ConsensusNode) (parent : Block) (view : ℕ) (commands : List Bytes) :
    Block :=
  (stampProposal (verifier.overHistories allChanges) pinned timed leader
    ⟨blockOn parent view 0 commands, certificate parent⟩).block

def pinnedRun (inputs : List CommitInput) : CommitSystem :=
  run (CommitSystem.step timed writing pinnedDurable) .fresh inputs

/-- The verdict after a restart. -/
def pinnedVerdict (s : CommitSystem) : Option (Except HistoryCheckError Unit) := do
  let r ← recoverRunning timed pinnedDurable s.store
  r.node.verifyPersistedHistoryConsistency timed allChanges pinned s.store.storage 5

/-- A rotation whose leader has committed nothing either. -/
theorem rotation_accepted : ∃ leader ∈ recover timed pinned .empty,
    let rotation := stampedOn leader (pinned.genesis timed) 10 [rotate₄]
    pinnedVerdict (pinnedRun [.start, .commit rotation, .put, .put, .stop]) = some (.ok ()) := by
  obtain ⟨leader, hleader, hfacts⟩ : ∃ leader ∈ recover timed pinned .empty,
      let rotation := stampedOn leader (pinned.genesis timed) 10 [rotate₄]
      let s := pinnedRun [.start, .commit rotation, .put, .put]
      (∃ r ∈ s.node, s.pending = [] ∧ s.store.storage.validatorKeyHistory ≠ none ∧
        (∀ p ∈ r.node.validatorKeyHistory.byStableId.toList, ∀ e ∈ p.2,
          r.node.validatorKeyHistory.pubkeyToStableId.get? e.key = some p.1) ∧
        ∀ bls ∈ r.node.blsKeyHistory, ∀ p ∈ bls.byStableId.toList, p.2 ≠ []) ∧
      s.chain = [rotation] ∧
      blockChange allChanges.toReconfigPrimitives pinned.minVEffDelay (pinned.chainId timed)
        (.fromGenesis pinned.validatorSet) rotation = none ∧
      s.store.storage.lastCommitted = some ⟨1, 10, rotation.hash timed⟩ ∧
      ∃ r ∈ recoverRunning timed pinnedDurable s.store,
        walkToGenesis s.store.storage r.node.core.state 5 (rotation.hash timed) [] =
          some (.complete [pinned.genesis timed, rotation]) := by decide +kernel
  refine ⟨leader, hleader, ?_⟩
  intro rotation
  obtain ⟨⟨r, hr, hpending, hstored, howned, hbls⟩, hchain, hunchanged, hlast, r', hr', hwalk⟩ :=
    hfacts
  have hends : Along (CommitSystem.step timed writing pinnedDurable)
      (CommitSystem.EndsSafely timed pinnedDurable) .fresh
      [.start, .commit rotation, .put, .put, .stop] := by
    refine ⟨fun h => h.elim, fun h => absurd h.2 ?_, fun h => h.elim, fun h => h.elim,
      fun _ n hn => ?_, trivial⟩
    · exact Bool.false_ne_true
    · rw [← Option.some.inj (hr.symm.trans hn)]
      exact CommitSystem.survives_of_lists hpending hstored howned hbls
  have hstamped : StampedBy timed writing pinnedDurable verifier [] rotation :=
    stampedBy_of_fresh (Option.mem_def.mp hleader) _
  generalize hs : pinnedRun [.start, .commit rotation, .put, .put, .stop] = s
  obtain ⟨hone, hnone, hstore⟩ : s.chain = [rotation] ∧ s.node = none ∧
      s.store = (pinnedRun [.start, .commit rotation, .put, .put]).store := by
    rw [← hs]
    exact ⟨hchain, rfl, rfl⟩
  have honly : ∀ k b, s.chain[k]? = some b → k = 0 ∧ b = rotation := by
    intro k b hk
    rw [hone, List.getElem?_singleton] at hk
    split_ifs at hk with hzero
    exact ⟨hzero, (Option.some.inj hk).symm⟩
  have hstamps : ∀ (k : ℕ) b, s.chain[k]? = some b →
      StampedBy timed writing pinnedDurable verifier (s.chain.take 0) b := by
    intro k b hk
    rw [(honly k b hk).2]
    exact hstamped
  obtain ⟨n, hn, haccepted⟩ := stamped_chain_accepted_iff collisionFree_allChanges rfl hends
    hs.symm hnone hstamps
  have hsettled : Settles timed writing pinnedDurable (fun _ => 0) s.chain := by
    intro k b hk
    obtain ⟨rfl, rfl⟩ := honly k b hk
    refine ⟨fun change hchange => ?_, ?_⟩
    · have hrefused := hunchanged.symm.trans hchange
      cases hrefused
    · rfl
  have hverdict : pinnedVerdict s = n.node.verifyPersistedHistoryConsistency timed allChanges
      pinned s.store.storage 5 := by
    unfold pinnedVerdict
    rw [hn]
    rfl
  rw [hverdict]
  refine (haccepted 5 ?_).mpr hsettled
  have hsame : n = r' := by
    rw [hstore] at hn
    exact Option.some.inj (hn.symm.trans hr')
  unfold ConsensusNode.StoredChain
  rw [hone, hsame, hstore, hlast]
  exact ⟨hwalk, rfl⟩

/-- An empty block whose leader has not committed the rotation before it is refused, and so is one
on a newcomer, whatever its leader has committed. -/
theorem stamps_refused : (∃ leader ∈ recover timed pinned .empty,
    let rotation := stampedOn leader (pinned.genesis timed) 10 [rotate₄]
    let s := pinnedRun [.start, .commit rotation, .put, .put,
      .commit (stampedOn leader rotation 11 [])]
    s.pending = [] ∧ ∃ verdict ∈ pinnedVerdict (s.step timed writing pinnedDurable .stop),
      verdict ≠ .ok ()) ∧
    ∃ leader ∈ recover timed pinned .empty,
      let admission := stampedOn leader (pinned.genesis timed) 10 [add₅]
      ∃ r ∈ (pinnedRun [.start, .commit admission, .put, .put]).node,
        let s := pinnedRun [.start, .commit admission, .put, .put,
          .commit (stampedOn r.node admission 11 [])]
        s.pending = [] ∧ ∃ verdict ∈ pinnedVerdict (s.step timed writing pinnedDurable .stop),
          verdict ≠ .ok () := by
  decide +kernel

end Sample

end Boule
