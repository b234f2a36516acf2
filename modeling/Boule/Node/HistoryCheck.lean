import Boule.HistoryReload
import Boule.Node.Heard

/-! `verify_persisted_history_consistency`: at startup the histories are rebuilt from the stored
chain and compared with the loaded ones. -/
namespace Boule
open ConsensusNode

inductive HistoryCheckError where
  | genesisMissing (hash : BlockHash)
  | genesisMismatch (walked configured : BlockHash)
  | emptyHistory
  | seedSet (e : WeightedSetError)
  | commitmentMismatch (height view : ℕ) (hash : BlockHash) (claimed actual : Bytes32)
  | setMismatch (loaded rebuilt : ℕ)
  | keyMismatch (loaded rebuilt : ℕ)
  | blsMismatch (loaded rebuilt : ℕ)
  | blsPresence
  | panicked
  deriving DecidableEq

/-- Where the walk from the last committed block ends. -/
inductive ChainWalk where
  | complete (chain : List Block)
  | pruned (hash : BlockHash)
  | genesisMissing (hash : BlockHash)
  deriving DecidableEq

/-- At most `n` blocks towards genesis; `none` when that was not enough. -/
def walkToGenesis (storage : Storage) (state : HotStuffState) :
    ℕ → BlockHash → List Block → Option ChainWalk
  | 0, _, _ => none
  | n + 1, cursor, chain =>
    let block :=
      if cursor = state.genesisHash then
        (state.pendingBlocks.get? cursor).or (storage.blocks.get? cursor)
      else storage.blocks.get? cursor
    match block with
    | none =>
      some (if cursor = state.genesisHash then .genesisMissing cursor else .pruned cursor)
    | some block =>
      if block.header.height = 0 then some (.complete (block :: chain))
      else walkToGenesis storage state n block.header.parentHash (block :: chain)

/-- The first entry at view zero of each validator that has one. -/
def genesisOnly (loaded : PersistedKeyHistory) : PersistedKeyHistory where
  validators := loaded.validators.filterMap fun v =>
    let entries := v.entries.filter (·.vEff = 0)
    if entries.isEmpty then none else some ⟨v.stableId, entries.take 1⟩

def genesisOnlyBlsSeed (loaded : BlsKeyHistory) : Except HistoryCheckError BlsKeyHistory :=
  withError (BlsKeyHistory.fromPersisted (genesisOnly loaded.toPersisted)) .panicked

/-- A history that is not loaded has no seed. -/
def seedIfLoaded : Option BlsKeyHistory → Except HistoryCheckError (Option BlsKeyHistory)
  | none => .ok none
  | some loaded => (genesisOnlyBlsSeed loaded).map some

def genesisOnlyOperatorSeed (loaded : OperatorKeyHistory) :
    Except HistoryCheckError OperatorKeyHistory :=
  withError (OperatorKeyHistory.fromPersisted (genesisOnly loaded.toPersisted)) .panicked

section
variable (P : Primitives) (R : HistoryPrimitives) (cfg : NodeConfig)

/-- The histories from which the rebuild starts: all of it is taken from the loaded ones. -/
def ConsensusNode.rebuildSeed (n : ConsensusNode) : Except HistoryCheckError Histories := do
  let genesisWeighted ← okOr (n.validatorHistory.iter.head?.map fun b => b.2.iterWeighted)
    .emptyHistory
  let set ← (ValidatorSet.withWeights genesisWeighted).mapError .seedSet
  let bls ← seedIfLoaded n.blsKeyHistory
  let operator ← genesisOnlyOperatorSeed n.operatorKeyHistory
  return ⟨.fromGenesis set, .new set.members, bls, some operator⟩

def rebuildBlock (h : Histories) (block : Block) : Except HistoryCheckError Histories := do
  let h := replayBlock R cfg.minVEffDelay (cfg.chainId P) h block
  let claimed := block.header.validatorHistoryCommitment
  let actual := validatorHistoryCommitmentV2 R h
  require (claimed = actual) (.commitmentMismatch block.header.height block.header.view
    (block.hash P) claimed actual)
  return h

/-- The operator history is rebuilt, but not compared. -/
def ConsensusNode.compareHistories (n : ConsensusNode) (rebuilt : Histories) :
    Except HistoryCheckError Unit := do
  let loadedSet := n.validatorHistory.toPersisted
  let rebuiltSet := rebuilt.set.toPersisted
  require (loadedSet = rebuiltSet)
    (.setMismatch loadedSet.boundaries.length rebuiltSet.boundaries.length)
  let loadedKey := n.validatorKeyHistory.toPersisted
  let rebuiltKey := rebuilt.key.toPersisted
  require (loadedKey = rebuiltKey)
    (.keyMismatch loadedKey.validators.length rebuiltKey.validators.length)
  match n.blsKeyHistory, rebuilt.bls with
  | some loaded, some rebuilt =>
    require (loaded.toPersisted = rebuilt.toPersisted)
      (.blsMismatch loaded.toPersisted.validators.length rebuilt.toPersisted.validators.length)
  | none, none => .ok ()
  | _, _ => .error .blsPresence

def ConsensusNode.checkChain (n : ConsensusNode) (chain : List Block) :
    Except HistoryCheckError Unit := do
  let first ← okOr chain.head? .panicked
  require (first.hash P = n.core.state.genesisHash)
    (.genesisMismatch (first.hash P) n.core.state.genesisHash)
  let seed ← n.rebuildSeed
  let rebuilt ← chain.foldlM (rebuildBlock P R cfg) seed
  n.compareHistories rebuilt

/-- A chain that was pruned passes; `none` when the bound does not reach genesis. -/
def ConsensusNode.verifyPersistedHistoryConsistency (n : ConsensusNode) (storage : Storage)
    (bound : ℕ) : Option (Except HistoryCheckError Unit) :=
  match storage.lastCommitted with
  | none => some (.ok ())
  | some last =>
    if last.height = 0 then some (.ok ())
    else
      (walkToGenesis storage n.core.state bound last.lastCommittedHash []).map fun
        | .complete chain => n.checkChain P R cfg chain
        | .pruned _ => .ok ()
        | .genesisMissing hash => .error (.genesisMissing hash)

end

/-! ### Persisted forms tell histories apart -/

theorem same_of_persistKeys {t t' : Table NodeId (List KeyEntry)}
    (h : persistKeys t = persistKeys t') : t.Same t' := by
  have hentries : sortedEntries t = sortedEntries t' := by
    have hlist := congrArg PersistedKeyHistory.validators h
    refine List.map_injective_iff.mpr ?_ hlist
    rintro ⟨id, entries⟩ ⟨id', entries'⟩ he
    obtain ⟨rfl, rfl⟩ := PersistedValidator.mk.inj he
    rfl
  intro id
  apply Option.ext
  intro entries
  rw [← mem_sortedEntries, ← mem_sortedEntries, hentries]

theorem ValidatorSetHistory.toPersisted_injective {h h' : ValidatorSetHistory}
    (he : h.toPersisted = h'.toPersisted) : h = h' := by
  have hround := fromPersisted_toPersisted h
  rw [he, fromPersisted_toPersisted h'] at hround
  exact (Except.ok.inj hround).symm

/-- The four histories as they are written. -/
structure PersistedHistories where
  set : PersistedValidatorHistory
  key : PersistedKeyHistory
  bls : Option PersistedKeyHistory
  operator : Option PersistedKeyHistory
  deriving DecidableEq

def Histories.toPersisted (h : Histories) : PersistedHistories :=
  ⟨h.set.toPersisted, h.key.toPersisted, h.bls.map BlsKeyHistory.toPersisted,
    h.operator.map OperatorKeyHistory.toPersisted⟩

theorem Histories.Alike.toPersisted {h h' : Histories} (ha : h.Alike h') :
    h.toPersisted = h'.toPersisted := by
  obtain ⟨hkey, hbls, hoperator⟩ := ha.persisted
  unfold Histories.toPersisted
  rw [ha.set, hkey, hbls, hoperator]

/-- The commitment hash tells histories apart. -/
def HistoryPrimitives.CollisionFree (R : HistoryPrimitives) : Prop :=
  ∀ set set' key key' bls bls' op op',
    R.historyHash set key bls op = R.historyHash set' key' bls' op' →
      set = set' ∧ key = key' ∧ bls = bls' ∧ op = op'

/-! ### Genesis -/

/-- `compute_genesis_validator_history_commitment` -/
def NodeConfig.computeGenesisCommitment (R : HistoryPrimitives) (cfg : NodeConfig) : Bytes32 :=
  validatorHistoryCommitmentV2 R
    { set := .fromGenesis cfg.validatorSet
      key := .new cfg.validatorSet.members
      bls := some (.withGenesis cfg.genesisBls)
      operator :=
        if cfg.operatorKeys.isEmpty then none else some (.withGenesis cfg.operatorKeys) }

theorem fromSetHistory_fromGenesis (vs : ValidatorSet) :
    ValidatorKeyHistory.fromSetHistory (.fromGenesis vs) = .new vs.members := by
  unfold ValidatorKeyHistory.fromSetHistory ValidatorKeyHistory.new
  simp [ValidatorSetHistory.iter, ValidatorSetHistory.fromGenesis, List.foldl_map]

theorem replayBlock_of_no_commands (R : HistoryPrimitives) (minVEffDelay : ℕ) (chainId : ChainId)
    (h : Histories) {block : Block} (hc : block.commands = []) :
    replayBlock R minVEffDelay chainId h block = h := by
  unfold replayBlock applyRotationCommandsToHistories applyReconfigCommandsToSetHistory
    cancelRotations applyOperatorRotations applyOperatorKeyRotations
  rw [hc]
  simp only [List.foldl_nil]
  cases hop : h.operator with
  | none => rfl
  | some op =>
    simp only
    rw [← hop]

section
variable {P : Primitives} {R : HistoryPrimitives} {cfg : NodeConfig}

/-- The genesis block pins the seed of the rebuild. -/
theorem alike_of_genesis_commitment (hfree : R.CollisionFree) {seed : Histories}
    {set : ValidatorSet} (hset : seed.set = .fromGenesis set) (hkey : seed.key = .new set.members)
    (hop : seed.operator.isSome)
    (hc : cfg.computeGenesisCommitment R = validatorHistoryCommitmentV2 R seed) :
    seed.Alike cfg.genesisHistories := by
  obtain ⟨op, hop⟩ := Option.isSome_iff_exists.mp hop
  unfold NodeConfig.computeGenesisCommitment validatorHistoryCommitmentV2 at hc
  obtain ⟨hsets, -, hbls, hoperators⟩ := hfree _ _ _ _ _ _ _ _ hc
  have hsame : ValidatorSetHistory.fromGenesis cfg.validatorSet = seed.set :=
    ValidatorSetHistory.toPersisted_injective hsets
  have hmembers : set = cfg.validatorSet := by
    have hboundaries := congrArg ValidatorSetHistory.boundaries (hset.symm.trans hsame.symm)
    exact (Boundary.mk.inj (List.cons.inj hboundaries).1).2
  constructor
  · exact hsame.symm
  · have hkeys : seed.key = cfg.genesisHistories.key := by
      rw [hkey, hmembers]
      exact (fromSetHistory_fromGenesis cfg.validatorSet).symm
    rw [hkeys]
    exact ⟨.refl _, .refl _⟩
  · cases hb : seed.bls with
    | none =>
      rw [hb] at hbls
      cases hbls
    | some b =>
      rw [hb] at hbls
      exact .some (same_of_persistKeys (Option.some.inj hbls)).symm
  · rw [hop] at hoperators ⊢
    refine .some (same_of_persistKeys ?_)
    have hwritten : op.toPersisted =
        (OperatorKeyHistory.withGenesis cfg.operatorKeys).toPersisted := by
      rw [Option.map_some, Option.getD_some] at hoperators
      rw [← hoperators]
      cases hkeys : cfg.operatorKeys with
      | nil => rfl
      | cons e es => rfl
    exact hwritten

theorem seed_of_rebuildSeed {n : ConsensusNode} {seed : Histories}
    (h : n.rebuildSeed = .ok seed) : (∃ set, seed.set = .fromGenesis set ∧
      seed.key = .new set.members) ∧ seed.operator.isSome := by
  unfold rebuildSeed at h
  obtain ⟨weighted, -, h⟩ := bind_eq_ok.mp h
  obtain ⟨set, -, h⟩ := bind_eq_ok.mp h
  obtain ⟨bls, -, h⟩ := bind_eq_ok.mp h
  obtain ⟨operator, -, h⟩ := bind_eq_ok.mp h
  obtain rfl := Except.ok.inj h
  exact ⟨⟨set, rfl, rfl⟩, rfl⟩

/-- A rebuild that succeeds is the replay. -/
theorem foldlM_rebuildBlock {chain : List Block} {seed rebuilt : Histories}
    (h : chain.foldlM (rebuildBlock P R cfg) seed = .ok rebuilt) :
    rebuilt = chain.foldl (replayBlock R cfg.minVEffDelay (cfg.chainId P)) seed := by
  induction chain generalizing seed with
  | nil => exact (Except.ok.inj h).symm
  | cons block chain ih =>
    rw [List.foldlM_cons] at h
    obtain ⟨next, hblock, h⟩ := bind_eq_ok.mp h
    obtain ⟨_, -, hblock⟩ := bind_eq_ok.mp hblock
    obtain rfl := Except.ok.inj hblock
    exact ih h

/-- The histories that the chain makes of genesis. -/
def NodeConfig.replay (P : Primitives) (R : HistoryPrimitives) (cfg : NodeConfig)
    (chain : List Block) : Histories :=
  chain.foldl (replayBlock R cfg.minVEffDelay (cfg.chainId P)) cfg.genesisHistories

theorem alike_foldl_replayBlock {h h' : Histories} (ha : h.Alike h') (chain : List Block) :
    (chain.foldl (replayBlock R cfg.minVEffDelay (cfg.chainId P)) h).Alike
      (chain.foldl (replayBlock R cfg.minVEffDelay (cfg.chainId P)) h') :=
  foldl_same (r := Histories.Alike) (fun block ha => ha.replayBlock block) ha chain

theorem persisted_of_compareHistories {n : ConsensusNode} {rebuilt : Histories}
    (h : n.compareHistories rebuilt = .ok ()) :
    n.validatorHistory.toPersisted = rebuilt.set.toPersisted ∧
      n.validatorKeyHistory.toPersisted = rebuilt.key.toPersisted ∧
      n.blsKeyHistory.map BlsKeyHistory.toPersisted =
        rebuilt.bls.map BlsKeyHistory.toPersisted := by
  obtain ⟨_, hset, h⟩ := bind_eq_ok.mp h
  obtain ⟨_, hkey, h⟩ := bind_eq_ok.mp h
  refine ⟨of_decide_eq_true (require_eq_ok.mp hset), of_decide_eq_true (require_eq_ok.mp hkey), ?_⟩
  cases hn : n.blsKeyHistory with
  | none =>
    cases hr : rebuilt.bls with
    | none => rfl
    | some b =>
      rw [hn, hr] at h
      cases h
  | some loaded =>
    cases hr : rebuilt.bls with
    | none =>
      rw [hn, hr] at h
      cases h
    | some b =>
      rw [hn, hr] at h
      exact congrArg some (of_decide_eq_true (require_eq_ok.mp h))

/-- A chain from genesis that passes has rebuilt three of the loaded histories. -/
theorem persisted_of_checkChain (hfree : R.CollisionFree)
    (hgenesis : cfg.genesisHistoryCommitment = cfg.computeGenesisCommitment R)
    {n : ConsensusNode} {chain : List Block} (hchain : chain.head? = some (cfg.genesis P))
    (h : n.checkChain P R cfg chain = .ok ()) :
    n.validatorHistory.toPersisted = (cfg.replay P R chain).set.toPersisted ∧
      n.validatorKeyHistory.toPersisted = (cfg.replay P R chain).key.toPersisted ∧
      n.blsKeyHistory.map BlsKeyHistory.toPersisted =
        (cfg.replay P R chain).bls.map BlsKeyHistory.toPersisted := by
  obtain ⟨first, -, h⟩ := bind_eq_ok.mp h
  obtain ⟨_, -, h⟩ := bind_eq_ok.mp h
  obtain ⟨seed, hseed, h⟩ := bind_eq_ok.mp h
  obtain ⟨rebuilt, hfold, hcompare⟩ := bind_eq_ok.mp h
  obtain ⟨⟨set, hset, hkey⟩, hop⟩ := seed_of_rebuildSeed hseed
  obtain ⟨rest, rfl⟩ : ∃ rest, chain = cfg.genesis P :: rest := by
    cases chain with
    | nil => cases hchain
    | cons b rest => exact ⟨rest, by rw [Option.some.inj hchain]⟩
  -- the first block of the rebuild is genesis, which changes nothing
  have hpinned : cfg.computeGenesisCommitment R = validatorHistoryCommitmentV2 R seed := by
    rw [List.foldlM_cons] at hfold
    obtain ⟨next, hblock, -⟩ := bind_eq_ok.mp hfold
    obtain ⟨_, hclaimed, -⟩ := bind_eq_ok.mp hblock
    have hsame := of_decide_eq_true (require_eq_ok.mp hclaimed)
    rw [replayBlock_of_no_commands R _ _ seed rfl] at hsame
    rw [← hgenesis]
    exact hsame
  have halike := alike_of_genesis_commitment hfree hset hkey hop hpinned
  have hrebuilt : rebuilt.toPersisted = (cfg.replay P R (cfg.genesis P :: rest)).toPersisted := by
    rw [foldlM_rebuildBlock hfold]
    exact (alike_foldl_replayBlock halike _).toPersisted
  obtain ⟨hs, hk, hb⟩ := persisted_of_compareHistories hcompare
  refine ⟨hs.trans (congrArg PersistedHistories.set hrebuilt),
    hk.trans (congrArg PersistedHistories.key hrebuilt),
    hb.trans (congrArg PersistedHistories.bls hrebuilt)⟩

/-! ### What the check detects -/

variable (P cfg) in
/-- The stored chain, complete back to genesis. -/
def ConsensusNode.StoredChain (n : ConsensusNode) (storage : Storage) (bound : ℕ)
    (chain : List Block) : Prop :=
  match storage.lastCommitted with
  | none => chain = [cfg.genesis P]
  | some last =>
    if last.height = 0 then chain = [cfg.genesis P]
    else
      walkToGenesis storage n.core.state bound last.lastCommittedHash [] =
          some (.complete chain) ∧
        chain.head? = some (cfg.genesis P)

/-- Blocks that are stored under the hashes that their children name, the last one on genesis. -/
def LinkedBlocks (storage : Storage) (state : HotStuffState) : BlockHash → List Block → Prop
  | cursor, [] => cursor = state.genesisHash
  | cursor, b :: bs =>
    cursor ≠ state.genesisHash ∧ storage.blocks.get? cursor = some b ∧ b.header.height ≠ 0 ∧
      LinkedBlocks storage state b.header.parentHash bs

/-- A bound above the number of blocks is enough for the walk. -/
theorem walkToGenesis_of_linked {storage : Storage} {state : HotStuffState} {genesis : Block}
    (hgenesis : state.pendingBlocks.get? state.genesisHash = some genesis)
    (hheight : genesis.header.height = 0) {cursor : BlockHash} {blocks : List Block}
    (hlinked : LinkedBlocks storage state cursor blocks) {bound : ℕ}
    (hbound : blocks.length < bound) (chain : List Block) :
    walkToGenesis storage state bound cursor chain =
      some (.complete (genesis :: (blocks.reverse ++ chain))) := by
  induction blocks generalizing cursor bound chain with
  | nil =>
    obtain ⟨bound, rfl⟩ : ∃ k, bound = k + 1 := ⟨bound - 1, by simp at hbound; omega⟩
    obtain rfl : cursor = state.genesisHash := hlinked
    rw [walkToGenesis]
    simp only [if_true, hgenesis, Option.some_or, hheight]
    rfl
  | cons b bs ih =>
    obtain ⟨hne, hstored, hpositive, hrest⟩ := hlinked
    obtain ⟨bound, rfl⟩ : ∃ k, bound = k + 1 := ⟨bound - 1, by simp at hbound; omega⟩
    rw [walkToGenesis]
    simp only [if_neg hne, hstored, if_neg hpositive]
    rw [ih hrest (by simpa using hbound), List.reverse_cons, List.append_assoc]
    rfl

/-- What the check lets through is the replay of the chain exactly when the operator keys are,
and, where nothing above genesis is committed, all histories are those of genesis. -/
theorem accepted_replayed_iff (hfree : R.CollisionFree)
    (hgenesis : cfg.genesisHistoryCommitment = cfg.computeGenesisCommitment R)
    {n : ConsensusNode} {storage : Storage} {bound : ℕ} {chain : List Block}
    (hchain : n.StoredChain P cfg storage bound chain)
    (hok : n.verifyPersistedHistoryConsistency P R cfg storage bound = some (.ok ())) :
    n.histories.toPersisted = (cfg.replay P R chain).toPersisted ↔
      n.histories.toPersisted.operator = (cfg.replay P R chain).toPersisted.operator ∧
        ((∀ last ∈ storage.lastCommitted, last.height = 0) →
          n.histories.toPersisted = cfg.genesisHistories.toPersisted) := by
  have hreplay : chain = [cfg.genesis P] →
      (cfg.replay P R chain).toPersisted = cfg.genesisHistories.toPersisted := by
    rintro rfl
    unfold NodeConfig.replay
    rw [List.foldl_cons, List.foldl_nil, replayBlock_of_no_commands R _ _ _ rfl]
  unfold StoredChain at hchain
  unfold verifyPersistedHistoryConsistency at hok
  cases hlast : storage.lastCommitted with
  | none =>
    rw [hlast] at hchain
    have hsame := hreplay hchain
    constructor
    · intro h
      exact ⟨congrArg PersistedHistories.operator h, fun _ => h.trans hsame⟩
    · rintro ⟨-, h⟩
      exact (h (by simp)).trans hsame.symm
  | some last =>
    rw [hlast] at hchain hok
    by_cases hzero : last.height = 0
    · simp only [if_pos hzero] at hchain
      have hsame := hreplay hchain
      constructor
      · intro h
        exact ⟨congrArg PersistedHistories.operator h, fun _ => h.trans hsame⟩
      · rintro ⟨-, h⟩
        exact (h (by simpa using hzero)).trans hsame.symm
    · simp only [if_neg hzero] at hchain hok
      obtain ⟨hwalk, hhead⟩ := hchain
      rw [hwalk] at hok
      obtain ⟨hset, hkey, hbls⟩ := persisted_of_checkChain hfree hgenesis hhead
        (Option.some.inj hok)
      constructor
      · intro h
        exact ⟨congrArg PersistedHistories.operator h,
          fun hnone => absurd (hnone last rfl) hzero⟩
      · rintro ⟨hop, -⟩
        exact PersistedHistories.mk.injEq .. |>.mpr ⟨hset, hkey, hbls, hop⟩

end

namespace Sample

theorem collisionFree_allChanges : allChanges.CollisionFree := by
  intro set set' key key' bls bls' op op' h
  obtain ⟨hsets, hkeys⟩ := Prod.mk.inj (Encodable.encode_injective h)
  have hboundary : Function.Injective fun b : PersistedBoundary =>
      (b.vEff, b.members, b.weights.map UInt64.toNat) := by
    rintro ⟨v, ms, ws⟩ ⟨v', ms', ws'⟩ he
    obtain ⟨hv, he⟩ := Prod.mk.inj he
    obtain ⟨hms, hws⟩ := Prod.mk.inj he
    have hweights : ws = ws' :=
      List.map_injective_iff.mpr (fun _ _ hw => UInt64.toNat_inj.mp hw) hws
    exact PersistedBoundary.mk.injEq .. |>.mpr ⟨hv, hms, hweights⟩
  have hset : set = set' := by
    obtain ⟨bs⟩ := set
    obtain ⟨bs'⟩ := set'
    have hboundaries : bs = bs' := List.map_injective_iff.mpr hboundary hsets
    rw [hboundaries]
  simp only [List.map_cons, List.map_nil, Option.map_map, List.cons.injEq] at hkeys
  obtain ⟨hkey, hbls, hop, -⟩ := hkeys
  have hinj := Option.map_injective validators_injective
  exact ⟨hset, Option.some.inj (hinj hkey), hinj hbls, Option.some.inj (hinj hop)⟩

/-- The genesis block commits to the genesis histories. -/
def pinned : NodeConfig :=
  { config with genesisHistoryCommitment := config.computeGenesisCommitment allChanges }

def stamped : Block :=
  let b := blockOn (pinned.genesis timed) 10 0 []
  { b with header := { b.header with
      validatorHistoryCommitment := pinned.genesisHistoryCommitment } }

/-- The stored chain of one block, with a blob for the operator keys. -/
def holding (operator : Option PersistedKeyHistory) : Storage :=
  { Storage.empty with
    blocks := (∅ : Table BlockHash Block).insert (stamped.hash timed) stamped
    lastCommitted := some ⟨1, 10, stamped.hash timed⟩
    operatorKeyHistory := operator }

def checked (operator : Option PersistedKeyHistory) :
    Option (ConsensusNode × Except HistoryCheckError Unit) := do
  let n ← recover timed pinned (holding operator)
  let verdict ← n.verifyPersistedHistoryConsistency timed allChanges pinned (holding operator) 3
  return (n, verdict)

theorem untouched_replayed : ∃ r ∈ checked none, r.2 = .ok () ∧
    r.1.histories.toPersisted =
      (pinned.replay timed allChanges [pinned.genesis timed, stamped]).toPersisted := by
  obtain ⟨n, hn, hok, hwalk, hop⟩ : ∃ n ∈ recover timed pinned (holding none),
      n.verifyPersistedHistoryConsistency timed allChanges pinned (holding none) 3 =
        some (.ok ()) ∧
      walkToGenesis (holding none) n.core.state 3 (stamped.hash timed) [] =
        some (.complete [pinned.genesis timed, stamped]) ∧
      n.histories.toPersisted.operator = (pinned.replay timed allChanges
        [pinned.genesis timed, stamped]).toPersisted.operator := by decide +kernel
  have hstored : n.StoredChain timed pinned (holding none) 3 [pinned.genesis timed, stamped] :=
    ⟨hwalk, rfl⟩
  have hgenesis : pinned.genesisHistoryCommitment = pinned.computeGenesisCommitment allChanges :=
    rfl
  have hsame := (accepted_replayed_iff collisionFree_allChanges hgenesis hstored hok).mpr
    ⟨hop, fun hnone => absurd (hnone _ rfl) (by decide)⟩
  have hchecked : (n, Except.ok ()) ∈ checked none := by
    rw [Option.mem_def] at hn
    simp [checked, hn, hok]
  exact ⟨_, hchecked, rfl, hsame⟩

/-- An operator key that no command has set passes the check. -/
theorem operator_key_slips_through : ∃ r ∈ checked (some ⟨[⟨1, [⟨7, 9⟩]⟩]⟩), r.2 = .ok () ∧
    (walkToGenesis (holding (some ⟨[⟨1, [⟨7, 9⟩]⟩]⟩)) r.1.core.state 3 (stamped.hash timed) [] =
      some (.complete [pinned.genesis timed, stamped])) ∧
    r.1.histories.toPersisted ≠
      (pinned.replay timed allChanges [pinned.genesis timed, stamped]).toPersisted := by
  decide +kernel

end Sample

end Boule
