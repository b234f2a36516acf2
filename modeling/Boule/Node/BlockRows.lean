import Boule.Lib.KeyScan
import Boule.Node.CommitRecord

/-! Committed blocks as rows under byte keys: what a commit writes, and which heights it prunes. -/
namespace Boule
open KeyScan

def storageKeyBlockPrefix : Bytes := "consensus/block/".toUTF8.data.toList

def storageKeyHeightPrefix : Bytes := "consensus/height/".toUTF8.data.toList

def storageKeyLastCommitted : Bytes := "consensus/last_committed".toUTF8.data.toList

abbrev Rows (V : Type) := Table Bytes V

/-- How hashes and the values of rows are encoded; what is read is what was written. -/
structure RowCodec (V : Type) where
  hashBytes : BlockHash → Bytes
  block : Block → V
  hash : BlockHash → V
  lastCommitted : LastCommitted → V
  block? : V → Option Block
  hash? : V → Option BlockHash
  hashBytes_injective : Function.Injective hashBytes
  block?_block : ∀ b, block? (block b) = some b
  hash?_hash : ∀ h, hash? (hash h) = some h

def heightStorageKey (height : ℕ) : Bytes := numberKey storageKeyHeightPrefix 8 height

def decodeHeightStorageKey (key : Bytes) : Option ℕ := readNumberKey storageKeyHeightPrefix 8 key

structure PruneTarget where
  height : Option ℕ
  heightKey : Bytes
  blockKey : Option Bytes

def PruneTarget.keys (target : PruneTarget) : List Bytes :=
  target.heightKey :: target.blockKey.toList

section
variable {V : Type} (C : RowCodec V)

def blockStorageKey (hash : BlockHash) : Bytes := storageKeyBlockPrefix ++ C.hashBytes hash

def loadBlockFromStorage (rows : Rows V) (hash : BlockHash) : Option Block :=
  (rows.get? (blockStorageKey C hash)).bind C.block?

/-- A row whose key or value is malformed is pruned with the others. -/
def pruneTarget (row : Bytes × V) : PruneTarget where
  height := decodeHeightStorageKey row.1
  heightKey := row.1
  blockKey := (C.hash? row.2).map (blockStorageKey C)

/-- The loop over the scanned rows, which stops at the first height that is kept. -/
def pruneTargetsBelow (pruneBelow : ℕ) : List (Bytes × V) → List PruneTarget
  | [] => []
  | row :: rest =>
    if (decodeHeightStorageKey row.1).any (pruneBelow ≤ ·) then []
    else pruneTarget C row :: pruneTargetsBelow pruneBelow rest

/-- `prune_targets_for_commit` -/
def rowTargetsForCommit (rows : Rows V) (lastCommittedHeight retentionWindow : ℕ) :
    List PruneTarget :=
  if retentionWindow = 0 then []
  else if lastCommittedHeight < retentionWindow then []
  else pruneTargetsBelow C (lastCommittedHeight - retentionWindow)
    (scanPrefix rows storageKeyHeightPrefix)

/-- The commit up to its batch; `none` stands for the halt at a violated checkpoint. -/
def ConsensusNode.commitRows (P : Primitives) (cfg : NodeConfig) (rows : Rows V)
    (n : ConsensusNode) (block : Block) : Option (Rows V × ConsensusNode) :=
  let n :=
    if n.lastCommittedHeight < block.header.height then
      { n with
        lastCommittedHeight := block.header.height
        lastCommittedView := block.header.view }
    else n
  let blockHash := block.hash P
  if weakSubjectivityViolation cfg.weakSubjectivityCheckpoint block.header.height blockHash then
    none
  else
    let targets := rowTargetsForCommit C rows n.lastCommittedHeight cfg.blockRetentionWindow
    let rows := rows.insert (blockStorageKey C blockHash) (C.block block)
    let rows := rows.insert (heightStorageKey block.header.height) (C.hash blockHash)
    let rows := rows.insert storageKeyLastCommitted
      (C.lastCommitted ⟨n.lastCommittedHeight, n.lastCommittedView, blockHash⟩)
    some ((targets.flatMap PruneTarget.keys).foldl (fun rows key => rows.erase key) rows, n)

end

/-! ### Keys -/

theorem prefixes_apart (s t : Bytes) :
    storageKeyHeightPrefix ++ s ≠ storageKeyBlockPrefix ++ t := by
  intro h
  have hbyte := congrArg (fun key : Bytes => key[10]?) h
  have hheight : (storageKeyHeightPrefix ++ s)[10]? = some 104 := by
    rw [List.getElem?_append_left (by decide)]
    decide
  have hblock : (storageKeyBlockPrefix ++ t)[10]? = some 98 := by
    rw [List.getElem?_append_left (by decide)]
    decide
  simp only [hheight, hblock] at hbyte
  cases hbyte

theorem heightStorageKey_lt_iff {m n : ℕ} (hm : m < 2 ^ 64) (hn : n < 2 ^ 64) :
    heightStorageKey m < heightStorageKey n ↔ m < n :=
  numberKey_lt_iff hm hn

theorem heightStorageKey_inj {m n : ℕ} (hm : m < 2 ^ 64) (hn : n < 2 ^ 64) :
    heightStorageKey m = heightStorageKey n ↔ m = n :=
  numberKey_inj hm hn

theorem not_prefix_lastCommitted : ¬ storageKeyHeightPrefix <+: storageKeyLastCommitted := by
  decide

section
variable {V : Type} {C : RowCodec V}

theorem blockStorageKey_inj {x y : BlockHash} : blockStorageKey C x = blockStorageKey C y ↔ x = y :=
  ⟨fun h => C.hashBytes_injective (List.append_cancel_left h), congrArg _⟩

theorem not_prefix_blockStorageKey (x : BlockHash) :
    ¬ storageKeyHeightPrefix <+: blockStorageKey C x := by
  rintro ⟨s, h⟩
  exact prefixes_apart s _ h

theorem heightStorageKey_ne_blockStorageKey (h : ℕ) (x : BlockHash) :
    heightStorageKey h ≠ blockStorageKey C x :=
  prefixes_apart _ _

theorem blockStorageKey_ne_lastCommitted (x : BlockHash) :
    blockStorageKey C x ≠ storageKeyLastCommitted := by
  intro h
  have hbyte := congrArg (fun key : Bytes => key[10]?) h
  have hblock : (blockStorageKey C x)[10]? = some 98 := by
    rw [blockStorageKey, List.getElem?_append_left (by decide)]
    decide
  rw [hblock] at hbyte
  revert hbyte
  decide

/-! ### What is pruned -/

theorem pruneTargetsBelow_eq (pruneBelow : ℕ) (rows : List (Bytes × V)) :
    pruneTargetsBelow C pruneBelow rows =
      (rows.takeWhile fun row => (decodeHeightStorageKey row.1).all (· < pruneBelow)).map
        (pruneTarget C) := by
  induction rows with
  | nil => rfl
  | cons row rest ih =>
    rw [pruneTargetsBelow]
    cases hrow : decodeHeightStorageKey row.1 with
    | none => simp [hrow, ih]
    | some h =>
      by_cases hlt : h < pruneBelow
      · simp [hrow, ih, hlt]
      · simp [hrow, hlt]

/-- The keys that a commit deletes. -/
def prunedKeys (C : RowCodec V) (rows : Rows V) (lastCommittedHeight retentionWindow : ℕ) :
    List Bytes :=
  (rowTargetsForCommit C rows lastCommittedHeight retentionWindow).flatMap PruneTarget.keys

variable {rows : Rows V} {last window : ℕ}

theorem mem_prunedKeys {key : Bytes} : key ∈ prunedKeys C rows last window ↔
    0 < window ∧ ∃ row ∈ scanBelow rows storageKeyHeightPrefix 8 (last - window),
      window ≤ last ∧ key ∈ (pruneTarget C row).keys := by
  unfold prunedKeys rowTargetsForCommit
  rw [pruneTargetsBelow_eq]
  by_cases hw : window = 0
  · simp [hw]
  by_cases hlast : last < window
  · simp [hw, hlast, Nat.pos_of_ne_zero hw]
  · rw [if_neg hw, if_neg hlast, List.mem_flatMap]
    constructor
    · rintro ⟨target, htarget, hkey⟩
      obtain ⟨row, hrow, rfl⟩ := List.mem_map.mp htarget
      exact ⟨Nat.pos_of_ne_zero hw, row, hrow, not_lt.mp hlast, hkey⟩
    · rintro ⟨-, row, hrow, -, hkey⟩
      exact ⟨_, List.mem_map_of_mem hrow, hkey⟩

/-- The scan visits the heights in order, so that it finds all that have expired. -/
theorem heightStorageKey_mem_prunedKeys {h : ℕ} (hh : h < 2 ^ 64) :
    heightStorageKey h ∈ prunedKeys C rows last window ↔
      0 < window ∧ h < last - window ∧ rows.containsKey (heightStorageKey h) = true := by
  rw [mem_prunedKeys]
  constructor
  · rintro ⟨hw, row, hrow, -, hkey⟩
    have heq : heightStorageKey h = row.1 := by
      rcases List.mem_cons.mp hkey with heq | hblock
      · exact heq
      · obtain ⟨x, -, hx⟩ := Option.map_eq_some_iff.mp (Option.mem_toList.mp hblock)
        exact absurd hx.symm (heightStorageKey_ne_blockStorageKey h x)
    obtain ⟨key, v⟩ := row
    obtain rfl : key = heightStorageKey h := heq.symm
    obtain ⟨hlt, hget⟩ := (mem_scanBelow hh).mp hrow
    exact ⟨hw, hlt, (Table.containsKey_iff _ _).mpr ⟨v, hget⟩⟩
  · rintro ⟨hw, hlt, hkey⟩
    obtain ⟨v, hget⟩ := (Table.containsKey_iff _ _).mp hkey
    exact ⟨hw, _, (mem_scanBelow hh).mpr ⟨hlt, hget⟩, by omega, List.mem_cons_self⟩

variable (C) in
/-- Every row of the height index names a block of its height that can be loaded. -/
def WellIndexed (P : Primitives) (rows : Rows V) : Prop :=
  ∀ key v, storageKeyHeightPrefix <+: key → rows.get? key = some v →
    ∃ b : Block, b.header.height < 2 ^ 64 ∧ key = heightStorageKey b.header.height ∧
      C.hash? v = some (b.hash P) ∧ loadBlockFromStorage C rows (b.hash P) = some b

/-- A block is deleted when the height that it is indexed under has expired. -/
theorem blockStorageKey_mem_prunedKeys {P : Primitives} (hi : WellIndexed C P rows)
    {x : BlockHash} :
    blockStorageKey C x ∈ prunedKeys C rows last window ↔
      0 < window ∧ ∃ b : Block, b.header.height < last - window ∧ b.header.height < 2 ^ 64 ∧
        (rows.get? (heightStorageKey b.header.height)).bind C.hash? = some x ∧
        loadBlockFromStorage C rows x = some b := by
  rw [mem_prunedKeys]
  constructor
  · rintro ⟨hw, row, hrow, -, hkey⟩
    have hscan := mem_scanPrefix.mp (List.takeWhile_subset _ hrow)
    obtain ⟨b, hsize, hrowkey, hhash, hload⟩ := hi row.1 row.2 hscan.1 hscan.2
    have hblock : C.hash? row.2 = some x := by
      rcases List.mem_cons.mp hkey with heq | hblock
      · have hprefix : storageKeyHeightPrefix <+: (pruneTarget C row).heightKey := hscan.1
        rw [← heq] at hprefix
        exact absurd hprefix (not_prefix_blockStorageKey x)
      · obtain ⟨y, hy, he⟩ := Option.map_eq_some_iff.mp (Option.mem_toList.mp hblock)
        rw [hy, blockStorageKey_inj.mp he]
    obtain rfl : b.hash P = x := Option.some.inj (hhash.symm.trans hblock)
    obtain ⟨key, v⟩ := row
    obtain rfl : key = heightStorageKey b.header.height := hrowkey
    obtain ⟨hlt, hget⟩ := (mem_scanBelow hsize).mp hrow
    exact ⟨hw, b, hlt, hsize, Option.bind_eq_some_iff.mpr ⟨v, hget, hhash⟩, hload⟩
  · rintro ⟨hw, b, hlt, hsize, hrow, hload⟩
    obtain ⟨v, hget, hhash⟩ := Option.bind_eq_some_iff.mp hrow
    refine ⟨hw, _, (mem_scanBelow hsize).mpr ⟨hlt, hget⟩, by omega, List.mem_cons_of_mem _ ?_⟩
    exact Option.mem_toList.mpr (Option.map_eq_some_iff.mpr ⟨x, hhash, rfl⟩)

end

/-! ### One commit -/

/-- What a commit's batch does to the rows of the two families. -/
structure RowBatch {V : Type} (C : RowCodec V) (P : Primitives) (cfg : NodeConfig) (rows : Rows V)
    (n : ConsensusNode) (block : Block) (rows' : Rows V) (n' : ConsensusNode) : Prop where
  height : n'.lastCommittedHeight =
    if n.lastCommittedHeight < block.header.height then block.header.height
    else n.lastCommittedHeight
  kept : ∀ key, key ≠ storageKeyLastCommitted → rows'.get? key =
    if key ∈ prunedKeys C rows n'.lastCommittedHeight cfg.blockRetentionWindow then none
    else if key = heightStorageKey block.header.height then some (C.hash (block.hash P))
    else if key = blockStorageKey C (block.hash P) then some (C.block block)
    else rows.get? key

theorem rowBatch_of_commitRows {V : Type} {C : RowCodec V} {P : Primitives} {cfg : NodeConfig}
    {rows rows' : Rows V} {n n' : ConsensusNode} {block : Block}
    (h : n.commitRows C P cfg rows block = some (rows', n')) :
    RowBatch C P cfg rows n block rows' n' := by
  unfold ConsensusNode.commitRows at h
  simp only at h
  generalize hn : (if n.lastCommittedHeight < block.header.height then
      { n with
        lastCommittedHeight := block.header.height
        lastCommittedView := block.header.view }
    else n : ConsensusNode) = raised at h
  have hheight : raised.lastCommittedHeight =
      if n.lastCommittedHeight < block.header.height then block.header.height
      else n.lastCommittedHeight := by
    rw [← hn]
    split_ifs <;> rfl
  split_ifs at h
  obtain ⟨rfl, rfl⟩ := Prod.mk.inj (Option.some.inj h)
  refine ⟨hheight, fun key hkey => ?_⟩
  rw [Table.get?_foldl_erase_keys, Table.get?_insert, if_neg hkey, Table.get?_insert,
    Table.get?_insert, prunedKeys]
  split_ifs <;> rfl

section
variable {V : Type} {C : RowCodec V} {P : Primitives} {cfg : NodeConfig} {rows rows' : Rows V}
  {n n' : ConsensusNode} {block : Block}

theorem RowBatch.last (h : RowBatch C P cfg rows n block rows' n')
    (hle : n.lastCommittedHeight ≤ block.header.height) :
    n'.lastCommittedHeight = block.header.height := by
  rw [h.height]
  split_ifs <;> omega

/-- The index after a commit. -/
theorem RowBatch.containsKey (h : RowBatch C P cfg rows n block rows' n')
    (hw : 0 < cfg.blockRetentionWindow) (hle : n.lastCommittedHeight ≤ block.header.height)
    {height : ℕ} (hh : height < 2 ^ 64) (hb : block.header.height < 2 ^ 64) :
    rows'.containsKey (heightStorageKey height) = true ↔
      (height = block.header.height ∨ rows.containsKey (heightStorageKey height) = true) ∧
        block.header.height - cfg.blockRetentionWindow ≤ height := by
  have hne : heightStorageKey height ≠ storageKeyLastCommitted := fun he =>
    not_prefix_lastCommitted (he ▸ prefix_numberKey height)
  have hlast := h.last hle
  have hkept := h.kept _ hne
  unfold Table.containsKey
  rw [hkept]
  by_cases hpruned : heightStorageKey height ∈ prunedKeys C rows n'.lastCommittedHeight
      cfg.blockRetentionWindow
  · rw [if_pos hpruned]
    obtain ⟨-, hlt, -⟩ := (heightStorageKey_mem_prunedKeys hh).mp hpruned
    rw [hlast] at hlt
    exact iff_of_false (by simp) (by omega)
  · rw [if_neg hpruned]
    rw [heightStorageKey_mem_prunedKeys hh, hlast] at hpruned
    by_cases heq : height = block.header.height
    · rw [if_pos (congrArg _ heq)]
      exact iff_of_true rfl ⟨.inl heq, by omega⟩
    · rw [if_neg fun he => heq ((heightStorageKey_inj hh hb).mp he),
        if_neg (heightStorageKey_ne_blockStorageKey height _)]
      unfold Table.containsKey at hpruned
      constructor
      · intro hkey
        exact ⟨.inr hkey, by by_contra hlt; exact hpruned ⟨hw, by omega, hkey⟩⟩
      · rintro ⟨heq' | hkey, -⟩
        · exact absurd heq' heq
        · exact hkey

/-- A block stays as long as nothing that has expired names it. -/
theorem RowBatch.load (h : RowBatch C P cfg rows n block rows' n') (x : BlockHash) :
    loadBlockFromStorage C rows' x =
      if blockStorageKey C x ∈
          prunedKeys C rows n'.lastCommittedHeight cfg.blockRetentionWindow then none
      else if x = block.hash P then some block
      else loadBlockFromStorage C rows x := by
  unfold loadBlockFromStorage
  rw [h.kept _ (blockStorageKey_ne_lastCommitted x)]
  by_cases hpruned : blockStorageKey C x ∈
      prunedKeys C rows n'.lastCommittedHeight cfg.blockRetentionWindow
  · rw [if_pos hpruned, if_pos hpruned]
    rfl
  rw [if_neg hpruned, if_neg hpruned,
    if_neg fun he => heightStorageKey_ne_blockStorageKey _ _ (Eq.symm he)]
  by_cases hx : x = block.hash P
  · rw [if_pos (congrArg _ hx), if_pos hx]
    exact C.block?_block block
  · rw [if_neg fun he => hx (blockStorageKey_inj.mp he), if_neg hx]

theorem RowBatch.load_of_kept (hi : WellIndexed C P rows)
    (h : RowBatch C P cfg rows n block rows' n')
    (hle : n.lastCommittedHeight ≤ block.header.height) {x : BlockHash}
    (hx : ∀ b, loadBlockFromStorage C rows x = some b →
      block.header.height - cfg.blockRetentionWindow ≤ b.header.height) :
    loadBlockFromStorage C rows' x =
      if x = block.hash P then some block else loadBlockFromStorage C rows x := by
  rw [h.load, if_neg]
  intro hpruned
  obtain ⟨-, b, hlt, -, -, hload⟩ := (blockStorageKey_mem_prunedKeys hi).mp hpruned
  rw [h.last hle] at hlt
  have hge := hx b hload
  omega

/-- The headers of the blocks around do not collide with the committed one. -/
def Distinct (C : RowCodec V) (P : Primitives) (rows : Rows V) (block : Block) : Prop :=
  ∀ b, loadBlockFromStorage C rows (block.hash P) = some b → b.header = block.header

theorem RowBatch.wellIndexed (hw : 0 < cfg.blockRetentionWindow) (hi : WellIndexed C P rows)
    (h : RowBatch C P cfg rows n block rows' n')
    (hle : n.lastCommittedHeight ≤ block.header.height) (hb : block.header.height < 2 ^ 64)
    (hfree : Distinct C P rows block) : WellIndexed C P rows' := by
  intro key v hprefix hget
  have hne : key ≠ storageKeyLastCommitted := fun he => not_prefix_lastCommitted (he ▸ hprefix)
  have hkept := h.kept key hne
  rw [hget] at hkept
  have hself : loadBlockFromStorage C rows' (block.hash P) = some block := by
    rw [h.load_of_kept hi hle, if_pos rfl]
    intro b hload
    rw [hfree b hload]
    omega
  split_ifs at hkept with hpruned hkey hblock
  · obtain rfl := Option.some.inj hkept
    exact ⟨block, hb, hkey, C.hash?_hash _, hself⟩
  · exact absurd (hblock ▸ hprefix) (not_prefix_blockStorageKey _)
  · obtain ⟨b, hsize, rfl, hhash, hload⟩ := hi key v hprefix hkept.symm
    have hrow := (h.containsKey hw hle hsize hb).mp ((Table.containsKey_iff _ _).mpr ⟨v, hget⟩)
    by_cases hsame : b.hash P = block.hash P
    · have hheader : b.header = block.header := hfree b (hsame ▸ hload)
      refine ⟨block, hb, by rw [hheader], by rw [hhash, hsame], hself⟩
    · refine ⟨b, hsize, rfl, hhash, ?_⟩
      have hold : loadBlockFromStorage C rows' (b.hash P) =
          if b.hash P = block.hash P then some block
          else loadBlockFromStorage C rows (b.hash P) := by
        refine h.load_of_kept hi hle fun b' hload' => ?_
        obtain rfl : b' = b := Option.some.inj (hload'.symm.trans hload)
        exact hrow.2
      rw [hold, if_neg hsame, hload]

end

/-! ### Runs of commits -/

/-- A write to a key of another family: histories, evidence, parameters, endpoints, snapshots. -/
structure OtherWrite (V : Type) where
  key : Bytes
  value : Option V
  notHeight : ¬ storageKeyHeightPrefix <+: key
  notBlock : ¬ storageKeyBlockPrefix <+: key

def OtherWrite.apply {V : Type} (w : OtherWrite V) (rows : Rows V) : Rows V :=
  match w.value with
  | none => rows.erase w.key
  | some v => rows.insert w.key v

/-- Where the other families start. -/
def otherFamilies : List Bytes :=
  ["consensus/last_voted_view", "consensus/locked", "consensus/high_qc",
    "consensus/proposed_in_view", "consensus/last_timeout_vote", "consensus/last_committed",
    "consensus/validator_history", "consensus/validator_key_history",
    "consensus/bls_key_history", "consensus/operator_key_history",
    "consensus/committed_evidence", "consensus/param_history", "consensus/endpoint_registry",
    "consensus/snap/"].map fun name => name.toUTF8.data.toList

theorem apart_of_otherFamilies {family key : Bytes} (hfamily : family ∈ otherFamilies)
    (hkey : family <+: key) :
    ¬ storageKeyHeightPrefix <+: key ∧ ¬ storageKeyBlockPrefix <+: key := by
  have hapart : ∀ family ∈ otherFamilies, ∀ pre ∈ [storageKeyHeightPrefix, storageKeyBlockPrefix],
      ¬ family <+: pre ∧ ¬ pre <+: family := by
    decide +kernel
  have hone : ∀ pre ∈ [storageKeyHeightPrefix, storageKeyBlockPrefix], ¬ pre <+: key := by
    intro pre hpre hprefix
    obtain ⟨hleft, hright⟩ := hapart family hfamily pre hpre
    exact (List.prefix_or_prefix_of_prefix hkey hprefix).elim hleft hright
  exact ⟨hone _ (by simp), hone _ (by simp)⟩

def OtherWrite.ofFamily {V : Type} {family : Bytes} (h : family ∈ otherFamilies) (suffix : Bytes)
    (value : Option V) : OtherWrite V where
  key := family ++ suffix
  value := value
  notHeight := (apart_of_otherFamilies h (List.prefix_append _ _)).1
  notBlock := (apart_of_otherFamilies h (List.prefix_append _ _)).2

/-- The rows of a node that commits, with the blocks whose commits went through. -/
structure CommittedRows (V : Type) where
  rows : Rows V
  node : ConsensusNode
  committed : List Block

/-- `apply_commit` with the writes that follow its batch. -/
def CommittedRows.step {V : Type} (C : RowCodec V) (P : Primitives) (R : ReconfigPrimitives)
    (cfg : NodeConfig) (s : CommittedRows V) (call : Block × List (OtherWrite V)) :
    CommittedRows V :=
  match s.node.commitRows C P cfg s.rows call.1 with
  | none => s
  | some (rows, node) => {
      rows := call.2.foldl (fun rows w => w.apply rows) rows
      node := (node.applyReconfigs R cfg.minVEffDelay (cfg.chainId P) call.1).1
      committed := s.committed ++ [call.1] }

/-- No two of the blocks that are stored and committed have one hash for different headers. -/
structure HashesApart {V : Type} (C : RowCodec V) (P : Primitives) (rows : Rows V)
    (blocks : List Block) : Prop where
  stored : ∀ c ∈ blocks, ∀ b, loadBlockFromStorage C rows (c.hash P) = some b →
    b.header = c.header
  committed : ∀ c ∈ blocks, ∀ c' ∈ blocks, c.hash P = c'.hash P → c.header = c'.header

namespace CommittedRows

section
variable {V : Type} (C : RowCodec V) (P : Primitives) (cfg : NodeConfig)

/-- What is indexed and stored after commits onto the given rows. -/
structure Pruned (rows : Rows V) (s : CommittedRows V) : Prop where
  indexed : WellIndexed C P s.rows
  content : ∀ height, height < 2 ^ 64 →
    (s.rows.containsKey (heightStorageKey height) = true ↔
      (rows.containsKey (heightStorageKey height) = true ∨
        ∃ b ∈ s.committed, b.header.height = height) ∧
      (s.committed = [] ∨ s.node.lastCommittedHeight - cfg.blockRetentionWindow ≤ height))
  named : ∀ b ∈ s.committed, s.rows.containsKey (heightStorageKey b.header.height) = true →
    s.rows.get? (heightStorageKey b.header.height) = some (C.hash (b.hash P)) ∧
      loadBlockFromStorage C s.rows (b.hash P) = some b
  source : ∀ hash b, loadBlockFromStorage C s.rows hash = some b →
    loadBlockFromStorage C rows hash = some b ∨ b ∈ s.committed ∧ b.hash P = hash
  kept : ∀ hash b, loadBlockFromStorage C rows hash = some b →
    (s.committed = [] ∨ s.node.lastCommittedHeight - cfg.blockRetentionWindow ≤ b.header.height) →
    ∃ b', loadBlockFromStorage C s.rows hash = some b' ∧ b'.header = b.header
  range : ∀ b ∈ s.committed, b.header.height < 2 ^ 64 ∧
    b.header.height ≤ s.node.lastCommittedHeight

end

section
variable {V : Type} {C : RowCodec V} {P : Primitives} {R : ReconfigPrimitives} {cfg : NodeConfig}
  {rows : Rows V} {s : CommittedRows V}

theorem get?_otherWrites (writes : List (OtherWrite V)) (rows : Rows V) {key : Bytes}
    (h : storageKeyHeightPrefix <+: key ∨ storageKeyBlockPrefix <+: key) :
    Table.get? (writes.foldl (fun rows w => w.apply rows) rows) key = rows.get? key := by
  induction writes generalizing rows with
  | nil => rfl
  | cons w writes ih =>
    have hne : key ≠ w.key := by
      rintro rfl
      exact h.elim w.notHeight w.notBlock
    rw [List.foldl_cons, ih]
    unfold OtherWrite.apply
    cases w.value with
    | none => rw [Table.get?_erase, if_neg hne]
    | some v => rw [Table.get?_insert, if_neg hne]

/-- The index and the blocks depend on the rows of their families only. -/
theorem Pruned.of_families {s' : CommittedRows V} (h : Pruned C P cfg rows s)
    (hrows : ∀ key, storageKeyHeightPrefix <+: key ∨ storageKeyBlockPrefix <+: key →
      s'.rows.get? key = s.rows.get? key)
    (hnode : s'.node.lastCommittedHeight = s.node.lastCommittedHeight)
    (hcommitted : s'.committed = s.committed) : Pruned C P cfg rows s' := by
  have hheight : ∀ height, s'.rows.get? (heightStorageKey height) =
      s.rows.get? (heightStorageKey height) := fun height =>
    hrows _ (.inl (prefix_numberKey height))
  have hkey : ∀ height, s'.rows.containsKey (heightStorageKey height) =
      s.rows.containsKey (heightStorageKey height) := fun height =>
    congrArg Option.isSome (hheight height)
  have hload : ∀ hash, loadBlockFromStorage C s'.rows hash =
      loadBlockFromStorage C s.rows hash := fun hash =>
    congrArg (Option.bind · C.block?) (hrows _ (.inr (List.prefix_append _ _)))
  constructor
  · intro key v hprefix hget
    rw [hrows key (.inl hprefix)] at hget
    simp only [hload]
    exact h.indexed key v hprefix hget
  · simp only [hkey, hnode, hcommitted]
    exact h.content
  · simp only [hkey, hheight, hload, hcommitted]
    exact h.named
  · simp only [hload, hcommitted]
    exact h.source
  · simp only [hload, hnode, hcommitted]
    exact h.kept
  · simp only [hnode, hcommitted]
    exact h.range

section
variable {block : Block} {rows' : Rows V} {node' : ConsensusNode}

theorem Pruned.content_batch (hw : 0 < cfg.blockRetentionWindow) (h : Pruned C P cfg rows s)
    (hbatch : RowBatch C P cfg s.rows s.node block rows' node')
    (hle : s.node.lastCommittedHeight ≤ block.header.height)
    (hsize : block.header.height < 2 ^ 64) {height : ℕ} (hheight : height < 2 ^ 64) :
    rows'.containsKey (heightStorageKey height) = true ↔
      (rows.containsKey (heightStorageKey height) = true ∨
        ∃ b ∈ s.committed ++ [block], b.header.height = height) ∧
      block.header.height - cfg.blockRetentionWindow ≤ height := by
  rw [hbatch.containsKey hw hle hheight hsize, h.content height hheight]
  constructor
  · rintro ⟨hold, hkept⟩
    refine ⟨?_, hkept⟩
    rcases hold with rfl | ⟨hrow | ⟨b, hb, he⟩, -⟩
    · exact .inr ⟨block, by simp, rfl⟩
    · exact .inl hrow
    · exact .inr ⟨b, List.mem_append_left _ hb, he⟩
  · rintro ⟨hold, hkept⟩
    refine ⟨?_, hkept⟩
    rcases hold with hrow | ⟨b, hb, rfl⟩
    · exact .inr ⟨.inl hrow, .inr (by omega)⟩
    · rcases List.mem_append.mp hb with hb | hb
      · exact .inr ⟨.inr ⟨b, hb, rfl⟩, .inr (by omega)⟩
      · exact .inl (by rw [List.mem_singleton.mp hb])

/-- A batch writes the row of the block's height. -/
theorem row_batch (hbatch : RowBatch C P cfg s.rows s.node block rows' node')
    (hle : s.node.lastCommittedHeight ≤ block.header.height)
    (hsize : block.header.height < 2 ^ 64) :
    rows'.get? (heightStorageKey block.header.height) = some (C.hash (block.hash P)) := by
  have hne : heightStorageKey block.header.height ≠ storageKeyLastCommitted := fun he =>
    not_prefix_lastCommitted (he ▸ prefix_numberKey block.header.height)
  have hpruned : heightStorageKey block.header.height ∉
      prunedKeys C s.rows node'.lastCommittedHeight cfg.blockRetentionWindow := by
    rw [heightStorageKey_mem_prunedKeys hsize, hbatch.last hle]
    omega
  rw [hbatch.kept _ hne, if_neg hpruned, if_pos rfl]

/-- The rows of a block committed before stay while its height is indexed. -/
theorem Pruned.named_batch (hw : 0 < cfg.blockRetentionWindow) (h : Pruned C P cfg rows s)
    (hbatch : RowBatch C P cfg s.rows s.node block rows' node')
    (hle : s.node.lastCommittedHeight ≤ block.header.height)
    (hsize : block.header.height < 2 ^ 64) (hfree : Distinct C P s.rows block) {b : Block}
    (hb : b ∈ s.committed) (hlt : b.header.height < block.header.height)
    (hkey : rows'.containsKey (heightStorageKey b.header.height) = true) :
    rows'.get? (heightStorageKey b.header.height) = some (C.hash (b.hash P)) ∧
      loadBlockFromStorage C rows' (b.hash P) = some b := by
  have hne : heightStorageKey b.header.height ≠ storageKeyLastCommitted := fun he =>
    not_prefix_lastCommitted (he ▸ prefix_numberKey b.header.height)
  have hrange := (h.range b hb).1
  obtain ⟨hold, hkept⟩ := (hbatch.containsKey hw hle hrange hsize).mp hkey
  obtain ⟨hrow, hload⟩ := h.named b hb (hold.resolve_left hlt.ne)
  have hpruned : heightStorageKey b.header.height ∉
      prunedKeys C s.rows node'.lastCommittedHeight cfg.blockRetentionWindow := by
    rw [heightStorageKey_mem_prunedKeys hrange, hbatch.last hle]
    omega
  have hother : b.hash P ≠ block.hash P := by
    intro he
    have hheader := hfree b (he ▸ hload)
    rw [hheader] at hlt
    exact lt_irrefl _ hlt
  constructor
  · rw [hbatch.kept _ hne, if_neg hpruned,
      if_neg fun he => hlt.ne ((heightStorageKey_inj hrange hsize).mp he),
      if_neg (heightStorageKey_ne_blockStorageKey _ _), hrow]
  · rw [hbatch.load_of_kept h.indexed hle, if_neg hother, hload]
    intro b' hload'
    obtain rfl := Option.some.inj (hload'.symm.trans hload)
    exact hkept

theorem Pruned.kept_batch (h : Pruned C P cfg rows s)
    (hbatch : RowBatch C P cfg s.rows s.node block rows' node')
    (hle : s.node.lastCommittedHeight ≤ block.header.height) (hfree : Distinct C P s.rows block)
    {hash : BlockHash} {b : Block} (hload : loadBlockFromStorage C rows hash = some b)
    (hkept : block.header.height - cfg.blockRetentionWindow ≤ b.header.height) :
    ∃ b', loadBlockFromStorage C rows' hash = some b' ∧ b'.header = b.header := by
  obtain ⟨b', hload', hheader⟩ := h.kept hash b hload (.inr (by omega))
  rw [hbatch.load_of_kept h.indexed hle]
  · split_ifs with hhash
    · exact ⟨block, rfl, (hfree b' (hhash ▸ hload')).symm.trans hheader⟩
    · exact ⟨b', hload', hheader⟩
  · intro c hc
    obtain rfl := Option.some.inj (hc.symm.trans hload')
    rw [hheader]
    exact hkept

/-- A batch keeps what was indexed and not expired, and adds its block. -/
theorem Pruned.batch (hw : 0 < cfg.blockRetentionWindow) (h : Pruned C P cfg rows s)
    (hbatch : RowBatch C P cfg s.rows s.node block rows' node')
    (hle : s.node.lastCommittedHeight ≤ block.header.height)
    (hrises : ∀ b ∈ s.committed, b.header.height < block.header.height)
    (hsize : block.header.height < 2 ^ 64) (hfree : Distinct C P s.rows block) :
    Pruned C P cfg rows ⟨rows', node', s.committed ++ [block]⟩ := by
  have hlast := hbatch.last hle
  have hself : loadBlockFromStorage C rows' (block.hash P) = some block := by
    rw [hbatch.load_of_kept h.indexed hle, if_pos rfl]
    intro b hload
    rw [hfree b hload]
    omega
  constructor
  · exact hbatch.wellIndexed hw h.indexed hle hsize hfree
  · intro height hheight
    rw [h.content_batch hw hbatch hle hsize hheight, hlast]
    exact and_congr_right fun _ => ⟨.inr, fun hkept => hkept.resolve_left (by simp)⟩
  · intro b hb hkey
    rcases List.mem_append.mp hb with hb | hb
    · exact h.named_batch hw hbatch hle hsize hfree hb (hrises b hb) hkey
    · obtain rfl := List.mem_singleton.mp hb
      exact ⟨row_batch hbatch hle hsize, hself⟩
  · intro hash b hload
    rw [hbatch.load] at hload
    split_ifs at hload with hpruned hhash
    · obtain rfl := Option.some.inj hload
      exact .inr ⟨by simp, hhash.symm⟩
    · exact (h.source hash b hload).imp_right fun hb => ⟨List.mem_append_left _ hb.1, hb.2⟩
  · intro hash b hload hkept
    rw [hlast] at hkept
    exact h.kept_batch hbatch hle hfree hload (hkept.resolve_left (by simp))
  · intro b hb
    rw [hlast]
    rcases List.mem_append.mp hb with hb | hb
    · exact ⟨(h.range b hb).1, (hrises b hb).le⟩
    · obtain rfl := List.mem_singleton.mp hb
      exact ⟨hsize, le_rfl⟩

end

theorem pruned_start (hi : WellIndexed C P rows) (n : ConsensusNode) :
    Pruned C P cfg rows ⟨rows, n, []⟩ where
  indexed := hi
  content height _ := by simp
  named := by simp
  source hash b hload := .inl hload
  kept hash b hload _ := ⟨b, hload, rfl⟩
  range := by simp

/-- A commit at the front, of a block whose hash no other one has. -/
theorem Pruned.step (hw : 0 < cfg.blockRetentionWindow) (h : Pruned C P cfg rows s)
    {call : Block × List (OtherWrite V)}
    (hle : s.node.lastCommittedHeight ≤ call.1.header.height)
    (hrises : ∀ b ∈ s.committed, b.header.height < call.1.header.height)
    (hsize : call.1.header.height < 2 ^ 64) {blocks : List Block}
    (hfree : HashesApart C P rows blocks) (hcommitted : s.committed ⊆ blocks)
    (hcall : call.1 ∈ blocks) : Pruned C P cfg rows (s.step C P R cfg call) := by
  unfold CommittedRows.step
  cases hcommit : s.node.commitRows C P cfg s.rows call.1 with
  | none => exact h
  | some r =>
    have hdistinct : Distinct C P s.rows call.1 := by
      intro b hload
      rcases h.source _ b hload with hold | ⟨hb, hhash⟩
      · exact hfree.stored _ hcall b hold
      · exact hfree.committed b (hcommitted hb) _ hcall hhash
    have hbatch := h.batch hw (rowBatch_of_commitRows hcommit) hle hrises hsize hdistinct
    refine hbatch.of_families (fun key hkey => get?_otherWrites _ _ hkey) ?_ rfl
    exact (counters_applyReconfigs R cfg.minVEffDelay (cfg.chainId P) r.2 call.1).1

/-- After a call at the front the later ones are at the front. -/
theorem front_step {call : Block × List (OtherWrite V)}
    (hle : s.node.lastCommittedHeight ≤ call.1.header.height) :
    (s.step C P R cfg call).node.lastCommittedHeight ≤ call.1.header.height ∧
      (s.step C P R cfg call).committed ⊆ s.committed ++ [call.1] := by
  unfold CommittedRows.step
  cases hcommit : s.node.commitRows C P cfg s.rows call.1 with
  | none => exact ⟨hle, List.subset_append_left _ _⟩
  | some r =>
    have hbatch : RowBatch C P cfg s.rows s.node call.1 r.1 r.2 := rowBatch_of_commitRows hcommit
    have hcounters := counters_applyReconfigs R cfg.minVEffDelay (cfg.chainId P) r.2 call.1
    exact ⟨(hcounters.1.trans (hbatch.last hle)).le, fun b hb => hb⟩

theorem pruned_run (hw : 0 < cfg.blockRetentionWindow) (h : Pruned C P cfg rows s)
    {calls : List (Block × List (OtherWrite V))} {blocks : List Block}
    (hfree : HashesApart C P rows blocks) (hcommitted : s.committed ⊆ blocks)
    (hcalls : ∀ c ∈ calls, c.1 ∈ blocks)
    (hrising : (calls.map fun c => c.1.header.height).Pairwise (· < ·))
    (hfront : ∀ c ∈ calls, s.node.lastCommittedHeight ≤ c.1.header.height ∧
      (∀ b ∈ s.committed, b.header.height < c.1.header.height) ∧ c.1.header.height < 2 ^ 64) :
    Pruned C P cfg rows (run (step C P R cfg) s calls) := by
  induction calls generalizing s with
  | nil => exact h
  | cons call calls ih =>
    obtain ⟨⟨hle, hrises, hsize⟩, hfront⟩ := List.forall_mem_cons.mp hfront
    obtain ⟨hcall, hcalls⟩ := List.forall_mem_cons.mp hcalls
    obtain ⟨hnext, hrising⟩ := List.pairwise_cons.mp hrising
    have hnow : Pruned C P cfg rows (s.step C P R cfg call) :=
      h.step hw hle hrises hsize hfree hcommitted hcall
    obtain ⟨hlast, hadded⟩ : (s.step C P R cfg call).node.lastCommittedHeight ≤
        call.1.header.height ∧ (s.step C P R cfg call).committed ⊆ s.committed ++ [call.1] :=
      front_step hle
    have hone : s.committed ++ [call.1] ⊆ blocks :=
      List.append_subset.mpr ⟨hcommitted, fun b hb => List.mem_singleton.mp hb ▸ hcall⟩
    refine ih hnow (fun b hb => hone (hadded hb)) hcalls hrising fun c hc => ?_
    have hlt : call.1.header.height < c.1.header.height := hnext _ (List.mem_map_of_mem hc)
    refine ⟨hlast.trans hlt.le, fun b hb => ?_, (hfront c hc).2.2⟩
    rcases List.mem_append.mp (hadded hb) with hb | hb
    · exact (hfront c hc).2.1 b hb
    · rw [List.mem_singleton.mp hb]
      exact hlt

/-- Keys of heights are ordered like the heights. After commits of rising heights the index has
exactly the heights that are not older than the retention window; every block that it names can be
loaded, and so can every other block of a height that it has. -/
theorem index_after_commits (hw : 0 < cfg.blockRetentionWindow) (hstart : WellIndexed C P rows)
    (n : ConsensusNode) {calls : List (Block × List (OtherWrite V))}
    (hfree : HashesApart C P rows (calls.map Prod.fst))
    (hrising : (calls.map fun c => c.1.header.height).Pairwise (· < ·))
    (hfront : ∀ c ∈ calls, n.lastCommittedHeight ≤ c.1.header.height ∧
      c.1.header.height < 2 ^ 64) :
    (∀ a b, a < 2 ^ 64 → b < 2 ^ 64 → (heightStorageKey a < heightStorageKey b ↔ a < b)) ∧
    let s := run (step C P R cfg) ⟨rows, n, []⟩ calls
    (∀ height, height < 2 ^ 64 → (s.rows.containsKey (heightStorageKey height) = true ↔
      (rows.containsKey (heightStorageKey height) = true ∨
        ∃ b ∈ s.committed, b.header.height = height) ∧
      (s.committed = [] ∨ s.node.lastCommittedHeight < cfg.blockRetentionWindow ∨
        s.node.lastCommittedHeight - cfg.blockRetentionWindow ≤ height))) ∧
    (∀ key v, storageKeyHeightPrefix <+: key → s.rows.get? key = some v →
      ∃ b : Block, key = heightStorageKey b.header.height ∧ C.hash? v = some (b.hash P) ∧
        loadBlockFromStorage C s.rows (b.hash P) = some b) ∧
    (∀ b ∈ s.committed, s.rows.containsKey (heightStorageKey b.header.height) = true →
      loadBlockFromStorage C s.rows (b.hash P) = some b) ∧
    ∀ hash b, loadBlockFromStorage C rows hash = some b → b.header.height < 2 ^ 64 →
      s.rows.containsKey (heightStorageKey b.header.height) = true →
      ∃ b', loadBlockFromStorage C s.rows hash = some b' ∧ b'.header = b.header := by
  refine ⟨fun a b => heightStorageKey_lt_iff, ?_⟩
  intro s
  have h : Pruned C P cfg rows s := by
    refine pruned_run hw (pruned_start hstart n) hfree (List.nil_subset _)
      (fun c hc => List.mem_map_of_mem hc) hrising fun c hc => ?_
    exact ⟨(hfront c hc).1, List.forall_mem_nil _, (hfront c hc).2⟩
  refine ⟨fun height hheight => ?_, fun key v hprefix hget => ?_, fun b hb hkey => ?_,
    fun hash b hload hsize hkey => ?_⟩
  · rw [h.content height hheight]
    refine and_congr_right fun _ => or_congr_right ?_
    omega
  · obtain ⟨b, -, hkey, hhash, hload⟩ := h.indexed key v hprefix hget
    exact ⟨b, hkey, hhash, hload⟩
  · exact (h.named b hb hkey).2
  · exact h.kept hash b hload ((h.content _ hsize).mp hkey).2

end

end CommittedRows

theorem wellIndexed_empty {V : Type} (C : RowCodec V) (P : Primitives) : WellIndexed C P ∅ :=
  fun key v _ h => by cases (Table.get?_empty key).symm.trans h

namespace Sample

/-- Rows that hold their values as they are. -/
def plainRows : RowCodec (Block ⊕ BlockHash ⊕ LastCommitted) where
  hashBytes := Leb128.encode
  block := .inl
  hash := .inr ∘ .inl
  lastCommitted := .inr ∘ .inr
  block? := Sum.getLeft?
  hash? := fun v => v.getRight?.bind Sum.getLeft?
  hashBytes_injective := Framing.readable_encode.injective
  block?_block _ := rfl
  hash?_hash _ := rfl

def retaining : NodeConfig := { config with blockRetentionWindow := 1 }

def top : Block := blockOn upper 12 0 []

theorem endpoints_family : "consensus/endpoint_registry".toUTF8.data.toList ∈ otherFamilies := by
  decide +kernel

/-- Three commits; after the first one the endpoints are written. -/
def threeCommits : List (Block × List (OtherWrite (Block ⊕ BlockHash ⊕ LastCommitted))) :=
  [(lower, [.ofFamily endpoints_family [] (some (.inr (.inl 0)))]), (upper, []), (top, [])]

theorem lowest_pruned : ∃ n ∈ ConsensusNode.recover timed retaining .empty,
    let s := run (CommittedRows.step plainRows timed reconfigs retaining) ⟨∅, n, []⟩ threeCommits
    s.rows.containsKey (heightStorageKey 1) = false ∧
      s.rows.containsKey (heightStorageKey 2) = true ∧
      loadBlockFromStorage plainRows s.rows (upper.hash timed) = some upper := by
  obtain ⟨n, hn, hfront, hcommitted, hlast⟩ : ∃ n ∈ ConsensusNode.recover timed retaining .empty,
      (∀ c ∈ threeCommits, n.lastCommittedHeight ≤ c.1.header.height ∧
        c.1.header.height < 2 ^ 64) ∧
      (run (CommittedRows.step plainRows timed reconfigs retaining) ⟨∅, n, []⟩
        threeCommits).committed = [lower, upper, top] ∧
      (run (CommittedRows.step plainRows timed reconfigs retaining) ⟨∅, n, []⟩
        threeCommits).node.lastCommittedHeight = 3 := by
    decide +kernel
  have hfree : HashesApart plainRows timed ∅ (threeCommits.map Prod.fst) := by
    constructor
    · intro c _ b hload
      cases hload
    · decide +kernel
  have hw : 0 < retaining.blockRetentionWindow := Nat.zero_lt_one
  have h := CommittedRows.index_after_commits (R := reconfigs) hw
    (wellIndexed_empty plainRows timed) n hfree (by decide +kernel) hfront
  obtain ⟨-, hcontent, -, hnamed, -⟩ := h
  have hupper : upper.header.height = 2 := by decide +kernel
  refine ⟨n, hn, ?_⟩
  intro s
  have hkey : s.rows.containsKey (heightStorageKey 2) = true := by
    refine (hcontent 2 (by norm_num)).mpr ⟨.inr ⟨upper, ?_, hupper⟩, .inr (.inr ?_)⟩
    · rw [hcommitted]
      simp
    · rw [hlast]
      decide
  refine ⟨?_, hkey, hnamed upper ?_ (by rw [hupper]; exact hkey)⟩
  · refine Bool.eq_false_iff.mpr fun hold => ?_
    obtain ⟨-, hkept⟩ := (hcontent 1 (by norm_num)).mp hold
    rw [hcommitted, hlast] at hkept
    revert hkept
    decide
  · rw [hcommitted]
    simp

end Sample

end Boule
