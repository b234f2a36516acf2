import Boule.Lib.Run
import Boule.Node.Recovery
import Boule.Node.Restore

/-! The commit record on disk: which block `LastCommitted` names, which blocks the height index
holds, and which ones a walk towards the ancestors reaches. -/
namespace Boule
open ConsensusNode

/-! ### The writes of a commit -/

/-- The commit up to its batch. -/
def ConsensusNode.commitBatch (P : Primitives) (cfg : NodeConfig) (storage : Storage)
    (n : ConsensusNode) (block : Block) : Option (Storage × ConsensusNode) :=
  let n :=
    if n.lastCommittedHeight < block.header.height then
      { n with
        lastCommittedHeight := block.header.height
        lastCommittedView := block.header.view }
    else n
  let blockHash := block.hash P
  if weakSubjectivityViolation cfg.weakSubjectivityCheckpoint block.header.height blockHash then
    none
  else
    let targets := pruneTargetsForCommit storage n.lastCommittedHeight cfg.blockRetentionWindow
    let storage := storage.putBlock blockHash block
    let storage := { storage with
      heights := storage.heights.insert block.header.height blockHash
      lastCommitted := some ⟨n.lastCommittedHeight, n.lastCommittedView, blockHash⟩ }
    some (prune storage targets, n)

/-- After its batch a commit writes the histories. -/
theorem applyCommit_eq_commitBatch (P : Primitives) (R : ReconfigPrimitives) (cfg : NodeConfig)
    (storage : Storage) (n : ConsensusNode) (block : Block) :
    n.applyCommit P R cfg storage block = (n.commitBatch P cfg storage block).map fun r =>
      r.2.applyCommittedReconfigs R cfg.minVEffDelay (cfg.chainId P) r.1 block := by
  unfold applyCommit commitBatch
  simp only
  split_ifs <;> rfl

/-- The loop of `load_block_range_from_storage`, for at most `n` blocks. -/
def walkBack (storage : Storage) (fromHeight toHeight cap : ℕ) :
    ℕ → BlockHash → List Block → List Block
  | 0, _, collected => collected
  | n + 1, cursor, collected =>
    match storage.blocks.get? cursor with
    | none => collected
    | some block =>
      let h := block.header.height
      if h < fromHeight then collected
      else
        let taken := if h ≤ toHeight then collected ++ [block] else collected
        if h ≤ toHeight && cap ≤ taken.length then taken
        else if h = 0 then taken
        else walkBack storage fromHeight toHeight cap n block.header.parentHash taken

/-- The source has no bound on the number of blocks: its loop ends for want of a parent. -/
def loadBlockRangeFromStorage (storage : Storage) (bound : ℕ) (tipHash : BlockHash)
    (fromHeight toHeight cap : ℕ) : List Block :=
  if toHeight < fromHeight || cap = 0 then []
  else if tipHash = 0 then []
  else (walkBack storage fromHeight toHeight cap bound tipHash []).reverse

/-! ### Runs -/

/-- A node and its disk, with the blocks it has committed or adopted from snapshots, and those it
has stored because a lock or a certificate refers to them. -/
structure Archive where
  storage : Storage
  node : ConsensusNode
  committed : List Block
  referenced : List Block

/-- What happens to the disk of a node, one write after the other. -/
inductive ArchiveInput where
  | commit (block : Block)
  | restore (manifest : SnapshotManifest)
  | persist (pending : Table BlockHash Block) (updates : List StateUpdate)
  | other (storage : Storage) (node : ConsensusNode)
  | restart

/-- The blocks that updates refer to. -/
def referencedBlocks (pending : Table BlockHash Block) (updates : List StateUpdate) : List Block :=
  updates.filterMap fun u => u.blockHash?.bind pending.get?

theorem persistUpdates_keeps (s : Storage) (pending : Table BlockHash Block)
    (updates : List StateUpdate) :
    (s.persistUpdates pending updates).heights = s.heights ∧
      (s.persistUpdates pending updates).lastCommitted = s.lastCommitted := by
  have hput : ∀ s : Storage, ∀ u, (s.put u).heights = s.heights ∧
      (s.put u).lastCommitted = s.lastCommitted := by
    intro s u
    cases u <;> exact ⟨rfl, rfl⟩
  have hblock : ∀ s : Storage, ∀ u, (s.putReferenced pending u).heights = s.heights ∧
      (s.putReferenced pending u).lastCommitted = s.lastCommitted := by
    intro s u
    rcases Storage.putReferenced_eq pending s u with he | ⟨hash, b, -, he⟩
    · rw [he]
      exact ⟨rfl, rfl⟩
    · rw [he]
      exact ⟨rfl, rfl⟩
  have hheights := foldl_keeps (f := Storage.heights) fun s u => (hput s u).1
  have hheights' := foldl_keeps (f := Storage.heights) fun s u => (hblock s u).1
  have hlast := foldl_keeps (f := Storage.lastCommitted) fun s u => (hput s u).2
  have hlast' := foldl_keeps (f := Storage.lastCommitted) fun s u => (hblock s u).2
  unfold Storage.persistUpdates
  exact ⟨(hheights' _ _).trans (hheights _ _), (hlast' _ _).trans (hlast _ _)⟩

/-- What is stored besides the blocks that were there is referred to. -/
theorem get?_persistUpdates_referenced {s : Storage} {pending : Table BlockHash Block}
    {updates : List StateUpdate} {h : BlockHash} {b : Block}
    (hb : (s.persistUpdates pending updates).blocks.get? h = some b) :
    s.blocks.get? h = some b ∨
      pending.get? h = some b ∧ b ∈ referencedBlocks pending updates := by
  rw [← Storage.blocks_foldl_put s updates]
  unfold Storage.persistUpdates at hb
  generalize updates.foldl Storage.put s = t at hb
  induction updates generalizing t with
  | nil => exact .inl hb
  | cons u us ih =>
    rw [List.foldl_cons] at hb
    have hlater : referencedBlocks pending us ⊆ referencedBlocks pending (u :: us) :=
      List.Sublist.subset ((List.sublist_cons_self u us).filterMap _)
    rcases ih _ hb with ht | ⟨hp, href⟩
    · unfold Storage.putReferenced at ht
      cases hu : u.blockHash? with
      | none =>
        rw [hu] at ht
        exact .inl ht
      | some hash =>
        rw [hu] at ht
        cases hpending : pending.get? hash with
        | none =>
          simp only [hpending] at ht
          exact .inl ht
        | some block =>
          simp only [hpending, Storage.putBlock, Table.get?_insert] at ht
          split_ifs at ht with hsame
          · obtain rfl := Option.some.inj ht
            refine .inr ⟨by rw [hsame, hpending], ?_⟩
            unfold referencedBlocks
            rw [List.filterMap_cons_some (by rw [hu, Option.bind_some, hpending])]
            exact List.mem_cons_self ..
          · exact .inl ht
    · exact .inr ⟨hp, hlater href⟩

namespace Archive

/-- A write to any other key. -/
def rewrite (s : Archive) (storage : Storage) (node : ConsensusNode) : Archive :=
  { s with
    storage := { storage with
      blocks := s.storage.blocks
      heights := s.storage.heights
      lastCommitted := s.storage.lastCommitted }
    node := { node with
      lastCommittedHeight := s.node.lastCommittedHeight
      lastCommittedView := s.node.lastCommittedView } }

def step (P : Primitives) (cfg : NodeConfig) (s : Archive) : ArchiveInput → Archive
  | .commit block =>
    match s.node.commitBatch P cfg s.storage block with
    | none => s
    | some (storage, node) =>
      { s with storage := storage, node := node, committed := s.committed ++ [block] }
  | .restore manifest =>
    let actions :=
      (s.node.core.adoptSnapshot P manifest.block manifest.commitQc manifest.view).2
    { s with
      storage := writeSnapshot s.storage manifest actions
      node := (s.node.adopt P manifest).raiseCommitted manifest
      committed := s.committed ++ [manifest.block] }
  | .persist pending updates =>
    { s with
      storage := s.storage.persistUpdates pending updates
      referenced := s.referenced ++ referencedBlocks pending updates }
  | .other storage node => s.rewrite storage node
  | .restart =>
    match recover P cfg s.storage with
    | none => s
    | some node => { s with node := node }

end Archive

/-! A commit and a restore are their batch, and then writes to other keys. -/

theorem counters_applyReconfigs (R : ReconfigPrimitives) (minVEffDelay : ℕ) (chainId : ChainId)
    (n : ConsensusNode) (block : Block) :
    (n.applyReconfigs R minVEffDelay chainId block).1.lastCommittedHeight =
        n.lastCommittedHeight ∧
      (n.applyReconfigs R minVEffDelay chainId block).1.lastCommittedView =
        n.lastCommittedView := by
  rw [applyReconfigs_eq]
  cases blockChange R minVEffDelay chainId n.validatorHistory block with
  | none => exact ⟨rfl, rfl⟩
  | some change =>
    simp only [applyReconfig]
    split
    · exact ⟨rfl, rfl⟩
    · split <;> exact ⟨rfl, rfl⟩

theorem run_applyCommit {P : Primitives} {R : ReconfigPrimitives} {cfg : NodeConfig}
    {s : Archive} {storage : Storage} {n : ConsensusNode} {block : Block}
    (h : s.node.applyCommit P R cfg s.storage block = some (storage, n)) :
    run (Archive.step P cfg) s [.commit block, .other storage n] =
      { s with storage := storage, node := n, committed := s.committed ++ [block] } := by
  rw [applyCommit_eq_commitBatch] at h
  obtain ⟨⟨storage', n'⟩, hbatch, h⟩ := Option.map_eq_some_iff.mp h
  have hstorage : storage.blocks = storage'.blocks ∧ storage.heights = storage'.heights ∧
      storage.lastCommitted = storage'.lastCommitted := by
    have hfirst : (n'.applyCommittedReconfigs R cfg.minVEffDelay (cfg.chainId P) storage'
        block).1 = storage := congrArg Prod.fst h
    rw [← hfirst]
    exact ⟨rfl, rfl, rfl⟩
  have hn : n = (n'.applyReconfigs R cfg.minVEffDelay (cfg.chainId P) block).1 :=
    (congrArg Prod.snd h).symm
  obtain ⟨hheight, hview⟩ := counters_applyReconfigs R cfg.minVEffDelay (cfg.chainId P) n' block
  rw [← hn] at hheight hview
  simp only [run_cons, run_nil, Archive.step, hbatch, Archive.rewrite]
  congr 1
  · rw [← hstorage.1, ← hstorage.2.1, ← hstorage.2.2]
  · rw [← hheight, ← hview]

theorem run_restoreFromSnapshot (P : Primitives) (cfg : NodeConfig) (s : Archive)
    (m : SnapshotManifest) :
    run (Archive.step P cfg) s [.restore m,
        .other (s.node.restoreFromSnapshot P s.storage m).1
          (s.node.restoreFromSnapshot P s.storage m).2.1] =
      { s with
        storage := (s.node.restoreFromSnapshot P s.storage m).1
        node := (s.node.restoreFromSnapshot P s.storage m).2.1
        committed := s.committed ++ [m.block] } := by
  rw [restoreFromSnapshot_eq]
  simp only [run_cons, run_nil, Archive.step, Archive.rewrite]
  generalize (s.node.adopt P m).raiseCommitted m = n
  generalize writeSnapshot s.storage m _ = storage
  have hkept : (installHistories storage n m).1.blocks = storage.blocks ∧
      (installHistories storage n m).1.heights = storage.heights ∧
      (installHistories storage n m).1.lastCommitted = storage.lastCommitted ∧
      (installHistories storage n m).2.1.lastCommittedHeight = n.lastCommittedHeight ∧
      (installHistories storage n m).2.1.lastCommittedView = n.lastCommittedView := by
    unfold installHistories
    simp only
    split
    · exact ⟨rfl, rfl, rfl, rfl, rfl⟩
    · split_ifs <;> exact ⟨rfl, rfl, rfl, rfl, rfl⟩
  obtain ⟨hblocks, hheights, hlast, hheight, hview⟩ := hkept
  congr 1
  · rw [← hblocks, ← hheights, ← hlast]
  · rw [← hheight, ← hview]

/-- What a commit's batch does. -/
structure CommitBatch (P : Primitives) (cfg : NodeConfig) (storage : Storage) (n : ConsensusNode)
    (block : Block) (storage' : Storage) (n' : ConsensusNode) : Prop where
  height : n'.lastCommittedHeight =
    if n.lastCommittedHeight < block.header.height then block.header.height
    else n.lastCommittedHeight
  view : n'.lastCommittedView =
    if n.lastCommittedHeight < block.header.height then block.header.view else n.lastCommittedView
  blocks : storage'.blocks =
    (pruneTargetsForCommit storage n'.lastCommittedHeight cfg.blockRetentionWindow).foldl
      (fun t e => t.erase e.2) (storage.blocks.insert (block.hash P) block)
  heights : storage'.heights =
    (pruneTargetsForCommit storage n'.lastCommittedHeight cfg.blockRetentionWindow).foldl
      (fun t e => t.erase e.1) (storage.heights.insert block.header.height (block.hash P))
  lastCommitted : storage'.lastCommitted =
    some ⟨n'.lastCommittedHeight, n'.lastCommittedView, block.hash P⟩

theorem commitBatch_of_some {P : Primitives} {cfg : NodeConfig} {storage storage' : Storage}
    {n n' : ConsensusNode} {block : Block}
    (h : n.commitBatch P cfg storage block = some (storage', n')) :
    CommitBatch P cfg storage n block storage' n' := by
  unfold commitBatch at h
  simp only at h
  by_cases hlt : n.lastCommittedHeight < block.header.height
  · simp only [if_pos hlt] at h
    split_ifs at h
    obtain ⟨rfl, rfl⟩ := Prod.mk.inj (Option.some.inj h)
    exact ⟨(if_pos hlt).symm, (if_pos hlt).symm, rfl, rfl, rfl⟩
  · simp only [if_neg hlt] at h
    split_ifs at h
    obtain ⟨rfl, rfl⟩ := Prod.mk.inj (Option.some.inj h)
    exact ⟨(if_neg hlt).symm, (if_neg hlt).symm, rfl, rfl, rfl⟩

/-- Only a violated checkpoint stops a commit. -/
theorem commitBatch_eq_none_iff {P : Primitives} {cfg : NodeConfig} {storage : Storage}
    {n : ConsensusNode} {block : Block} : n.commitBatch P cfg storage block = none ↔
      weakSubjectivityViolation cfg.weakSubjectivityCheckpoint block.header.height
        (block.hash P) = true := by
  unfold commitBatch
  simp only
  split_ifs <;> simp [*]

/-- A recovered node counts from the stored record. -/
theorem counters_recover {P : Primitives} {cfg : NodeConfig} {storage : Storage}
    {n : ConsensusNode} (h : recover P cfg storage = some n) :
    n.lastCommittedHeight = (storage.lastCommitted.getD ⟨0, 0, 0⟩).height ∧
      n.lastCommittedView = (storage.lastCommitted.getD ⟨0, 0, 0⟩).view := by
  have hcounters := (recovered_of_recover h).lastCommitted
  exact ⟨hcounters.1.symm, hcounters.2.symm⟩

/-! ### What the record names -/

/-- A height is kept while it is not below the retention window. -/
def Retained (cfg : NodeConfig) (lastHeight height : ℕ) : Prop :=
  cfg.blockRetentionWindow = 0 ∨ lastHeight - cfg.blockRetentionWindow ≤ height

theorem not_retained_of_target {cfg : NodeConfig} {storage : Storage} {lastHeight : ℕ}
    {e : ℕ × BlockHash}
    (h : e ∈ pruneTargetsForCommit storage lastHeight cfg.blockRetentionWindow) :
    ¬ Retained cfg lastHeight e.1 := by
  unfold pruneTargetsForCommit at h
  split_ifs at h with hwindow
  · cases h
  · have hlt := of_decide_eq_true (List.mem_filter.mp h).2
    unfold Retained
    omega

namespace Archive

/-- The record names one committed block, the highest one; the index has the committed blocks of
the heights that are kept; and the walk finds committed blocks only. -/
structure NamesOne (P : Primitives) (cfg : NodeConfig) (s : Archive) : Prop where
  named : ∀ r ∈ s.storage.lastCommitted, ∃ b ∈ s.committed,
    r = ⟨b.header.height, b.header.view, b.hash P⟩ ∧
      ∀ c ∈ s.committed, c.header.height ≤ r.height
  recorded : s.committed ≠ [] → s.storage.lastCommitted.isSome
  indexed : ∀ r ∈ s.storage.lastCommitted, ∀ b ∈ s.committed,
    Retained cfg r.height b.header.height →
      s.storage.heights.get? b.header.height = some (b.hash P)
  index : ∀ height hash, s.storage.heights.get? height = some hash →
    ∃ b ∈ s.committed, b.header.height = height ∧ b.hash P = hash
  walk : ∀ r ∈ s.storage.lastCommitted, ∀ bound fromHeight toHeight cap,
    ∀ b ∈ loadBlockRangeFromStorage s.storage bound r.lastCommittedHash fromHeight toHeight cap,
      b ∈ s.committed

/-- Above all that was committed, or at the height and view of the last commit. -/
def AtFront (s : Archive) (height view : ℕ) : Prop :=
  s.node.lastCommittedHeight < height ∨
    s.node.lastCommittedHeight = height ∧ s.node.lastCommittedView = view

/-- A parent that is stored for a reference to it is committed. -/
def ParentCommitted (s : Archive) (block : Block) : Prop :=
  ∀ p ∈ s.referenced, s.storage.blocks.get? block.header.parentHash = some p → p ∈ s.committed

/-- A commit or a restore is at the front, a restored block is in the index already, and no block is
stored for a reference to it in the place of a committed one or of its parent. -/
def Rises (P : Primitives) (s : Archive) : ArchiveInput → Prop
  | .commit block =>
    s.AtFront block.header.height block.header.view ∧
      (block.header.height = s.node.lastCommittedHeight →
        ∀ hash ∈ s.storage.heights.get? block.header.height, hash = block.hash P) ∧
      s.ParentCommitted block
  | .restore m =>
    (m.block.header.height = m.height ∧ m.block.header.view = m.view ∧
      m.block.hash P = m.blockHash) ∧ s.AtFront m.height m.view ∧
      s.storage.heights.get? m.height = some m.blockHash ∧ s.ParentCommitted m.block
  | .persist pending updates =>
    ∀ hash b, pending.get? hash = some b → b ∈ referencedBlocks pending updates →
      (∃ c ∈ s.committed, hash = c.hash P ∨ hash = c.header.parentHash) → b ∈ s.committed
  | .other _ _ => True
  | .restart => True

/-- What the steps of a run keep. -/
structure Coherent (P : Primitives) (cfg : NodeConfig) (s : Archive) : Prop where
  counters : (s.storage.lastCommitted.getD ⟨0, 0, 0⟩).height = s.node.lastCommittedHeight ∧
    (s.storage.lastCommitted.getD ⟨0, 0, 0⟩).view = s.node.lastCommittedView
  named : ∀ r ∈ s.storage.lastCommitted, ∃ b ∈ s.committed,
    r = ⟨b.header.height, b.header.view, b.hash P⟩
  highest : ∀ c ∈ s.committed, c.header.height ≤ s.node.lastCommittedHeight
  recorded : s.committed ≠ [] → s.storage.lastCommitted.isSome
  indexed : ∀ b ∈ s.committed,
    Retained cfg s.node.lastCommittedHeight b.header.height →
      s.storage.heights.get? b.header.height = some (b.hash P)
  index : ∀ height hash, s.storage.heights.get? height = some hash →
    ∃ b ∈ s.committed, b.header.height = height ∧ b.hash P = hash
  stored : ∀ hash b, s.storage.blocks.get? hash = some b → b ∈ s.committed ∨ b ∈ s.referenced
  reached : ∀ c ∈ s.committed, ∀ hash b, hash = c.hash P ∨ hash = c.header.parentHash →
    s.storage.blocks.get? hash = some b → b ∈ s.committed

variable {P : Primitives} {cfg : NodeConfig} {s : Archive}

/-- The walk from a committed block finds committed blocks only. -/
theorem Coherent.walkBack (h : s.Coherent P cfg) {fromHeight toHeight cap : ℕ} (bound : ℕ)
    {cursor : BlockHash} {collected : List Block}
    (hcursor : ∃ c ∈ s.committed, cursor = c.hash P ∨ cursor = c.header.parentHash)
    (hcollected : ∀ b ∈ collected, b ∈ s.committed) :
    ∀ b ∈ walkBack s.storage fromHeight toHeight cap bound cursor collected,
      b ∈ s.committed := by
  induction bound generalizing cursor collected with
  | zero => exact hcollected
  | succ bound ih =>
    obtain ⟨c, hc, hcursor⟩ := hcursor
    rw [Boule.walkBack]
    cases hb : s.storage.blocks.get? cursor with
    | none => exact hcollected
    | some block =>
      have hblock := h.reached c hc cursor block hcursor hb
      have htaken : ∀ b ∈ (if block.header.height ≤ toHeight then collected ++ [block]
          else collected), b ∈ s.committed := by
        intro b hb
        split_ifs at hb
        · rcases List.mem_append.mp hb with hb | hb
          · exact hcollected b hb
          · rw [List.mem_singleton.mp hb]
            exact hblock
        · exact hcollected b hb
      simp only
      generalize (if block.header.height ≤ toHeight then collected ++ [block]
        else collected) = taken at htaken ⊢
      split
      · exact hcollected
      · split
        · exact htaken
        · split
          · exact htaken
          · exact ih ⟨block, hblock, .inr rfl⟩ htaken

theorem Coherent.namesOne (h : s.Coherent P cfg) : s.NamesOne P cfg := by
  have hheight : ∀ r ∈ s.storage.lastCommitted, r.height = s.node.lastCommittedHeight := by
    intro r hr
    have hc := h.counters.1
    rw [Option.mem_def.mp hr] at hc
    exact hc
  constructor
  · intro r hr
    obtain ⟨b, hb, he⟩ := h.named r hr
    refine ⟨b, hb, he, ?_⟩
    rw [hheight r hr]
    exact h.highest
  · exact h.recorded
  · intro r hr b hb hkept
    rw [hheight r hr] at hkept
    exact h.indexed b hb hkept
  · exact h.index
  · intro r hr bound fromHeight toHeight cap b hb
    obtain ⟨c, hc, he⟩ := h.named r hr
    unfold loadBlockRangeFromStorage at hb
    split_ifs at hb
    · cases hb
    · cases hb
    · rw [List.mem_reverse] at hb
      refine h.walkBack bound ⟨c, hc, .inl ?_⟩ (by simp) b hb
      rw [he]

theorem coherent_start {n : ConsensusNode} (hn : recover P cfg .empty = some n) :
    Coherent P cfg ⟨.empty, n, [], []⟩ := by
  obtain ⟨hheight, hview⟩ := counters_recover hn
  constructor
  · exact ⟨hheight.symm, hview.symm⟩
  all_goals simp [Storage.empty]

/-- The counters after a commit or a restore at the front. -/
theorem AtFront.raise {height view : ℕ} (h : s.AtFront height view) :
    (if s.node.lastCommittedHeight < height then height else s.node.lastCommittedHeight) =
        height ∧
      (if s.node.lastCommittedHeight < height then view else s.node.lastCommittedView) = view := by
  rcases h with hlt | ⟨hheight, hview⟩
  · rw [if_pos hlt, if_pos hlt]
    exact ⟨rfl, rfl⟩
  · rw [if_neg (by omega), if_neg (by omega)]
    exact ⟨hheight, hview⟩

/-- Storing a committed block whose parent is committed adds to what the walk finds. -/
theorem Coherent.insert (h : s.Coherent P cfg) {block : Block} (hparent : s.ParentCommitted block)
    (blocks : Table BlockHash Block) (hblocks : ∀ hash b, blocks.get? hash = some b →
      hash = block.hash P ∧ b = block ∨
        hash ≠ block.hash P ∧ s.storage.blocks.get? hash = some b) :
    (∀ hash b, blocks.get? hash = some b → b ∈ s.committed ++ [block] ∨ b ∈ s.referenced) ∧
      ∀ c ∈ s.committed ++ [block], ∀ hash b, hash = c.hash P ∨ hash = c.header.parentHash →
        blocks.get? hash = some b → b ∈ s.committed ++ [block] := by
  refine ⟨?_, ?_⟩
  · intro hash b hget
    rcases hblocks hash b hget with ⟨-, rfl⟩ | ⟨-, hold⟩
    · exact .inl (by simp)
    · exact (h.stored hash b hold).imp_left (List.mem_append_left _)
  · intro c hc hash b hhash hget
    rcases hblocks hash b hget with ⟨-, rfl⟩ | ⟨hne, hold⟩
    · simp
    · apply List.mem_append_left
      rcases List.mem_append.mp hc with hc | hc
      · exact h.reached c hc hash b hhash hold
      · obtain rfl := List.mem_singleton.mp hc
        have hhash := hhash.resolve_left hne
        rw [hhash] at hold
        rcases h.stored _ b hold with hb | hb
        · exact hb
        · exact hparent b hb hold

theorem Coherent.commit (h : s.Coherent P cfg) {block : Block}
    (hr : s.Rises P (.commit block)) : (s.step P cfg (.commit block)).Coherent P cfg := by
  obtain ⟨hfront, hindex, hparent⟩ := hr
  unfold Archive.step
  simp only
  cases hbatch : s.node.commitBatch P cfg s.storage block with
  | none => exact h
  | some r =>
    obtain ⟨storage, n⟩ := r
    have hb := commitBatch_of_some hbatch
    obtain ⟨hheight, hview⟩ := hfront.raise
    have hheight := hb.height.trans hheight
    have hview := hb.view.trans hview
    have hle : s.node.lastCommittedHeight ≤ block.header.height := by
      rcases hfront with hlt | ⟨hsame, -⟩
      · exact hlt.le
      · exact hsame.le
    constructor
    · simp [hb.lastCommitted]
    · intro r hr
      refine ⟨block, by simp, ?_⟩
      rw [hb.lastCommitted, hheight, hview] at hr
      exact (Option.some.inj hr).symm
    · intro c hc
      rw [hheight]
      rcases List.mem_append.mp hc with hc | hc
      · exact (h.highest c hc).trans hle
      · rw [List.mem_singleton.mp hc]
    · simp [hb.lastCommitted]
    · intro c hc hkept
      have hkept' : ∀ e ∈ pruneTargetsForCommit s.storage n.lastCommittedHeight
          cfg.blockRetentionWindow, e.1 ≠ c.header.height := by
        intro e he hsame
        apply not_retained_of_target he
        rw [hsame]
        exact hkept
      rw [hb.heights, Table.get?_foldl_erase _ _ _ _ hkept', Table.get?_insert]
      rcases List.mem_append.mp hc with hc | hc
      · have hold : s.storage.heights.get? c.header.height = some (c.hash P) := by
          refine h.indexed c hc ?_
          unfold Retained at hkept ⊢
          rw [hheight] at hkept
          omega
        split_ifs with hsame
        · have hat := h.highest c hc
          rw [hsame] at hold hat
          rw [hindex (by omega) (c.hash P) hold]
        · exact hold
      · rw [List.mem_singleton.mp hc, if_pos rfl]
    · intro height hash hget
      rw [hb.heights] at hget
      have hget := Table.get?_of_foldl_erase hget
      rw [Table.get?_insert] at hget
      split_ifs at hget with hsame
      · exact ⟨block, by simp, hsame.symm, Option.some.inj hget⟩
      · obtain ⟨b, hmem, hb⟩ := h.index height hash hget
        exact ⟨b, List.mem_append_left _ hmem, hb⟩
    all_goals
      have hstored := h.insert hparent storage.blocks fun hash b hget => by
        rw [hb.blocks] at hget
        have hget := Table.get?_of_foldl_erase hget
        rw [Table.get?_insert] at hget
        split_ifs at hget with hsame
        · exact .inl ⟨hsame, (Option.some.inj hget).symm⟩
        · exact .inr ⟨hsame, hget⟩
    · exact hstored.1
    · exact hstored.2

/-- What a restore's batch does. -/
theorem writeSnapshot_fields (storage : Storage) (m : SnapshotManifest) (actions : List Action) :
    (writeSnapshot storage m actions).blocks = storage.blocks.insert m.blockHash m.block ∧
      (writeSnapshot storage m actions).heights = storage.heights ∧
      (writeSnapshot storage m actions).lastCommitted =
        some ⟨m.height, m.view, m.blockHash⟩ := by
  unfold writeSnapshot
  refine ⟨?_, ?_, ?_⟩
  · apply foldl_keeps (f := Storage.blocks)
    intro s a
    cases a with
    | persist u => cases u <;> rfl
    | _ => rfl
  · apply foldl_keeps (f := Storage.heights)
    intro s a
    cases a with
    | persist u => cases u <;> rfl
    | _ => rfl
  · apply foldl_keeps (f := Storage.lastCommitted)
    intro s a
    cases a with
    | persist u => cases u <;> rfl
    | _ => rfl

theorem Coherent.restore (h : s.Coherent P cfg) {m : SnapshotManifest}
    (hr : s.Rises P (.restore m)) : (s.step P cfg (.restore m)).Coherent P cfg := by
  obtain ⟨⟨hheight, hview, hhash⟩, hfront, hindexed, hparent⟩ := hr
  unfold Archive.step
  simp only
  generalize (s.node.core.adoptSnapshot P m.block m.commitQc m.view).2 = actions
  obtain ⟨hblocks, hheights, hlast⟩ := writeSnapshot_fields s.storage m actions
  have hraised : ((s.node.adopt P m).raiseCommitted m).lastCommittedHeight = m.height ∧
      ((s.node.adopt P m).raiseCommitted m).lastCommittedView = m.view := by
    unfold raiseCommitted
    rcases hfront with hlt | ⟨hsame, hview⟩
    · have hlt' : (s.node.adopt P m).lastCommittedHeight < m.height := hlt
      rw [if_pos hlt']
      exact ⟨rfl, rfl⟩
    · have hge : ¬ (s.node.adopt P m).lastCommittedHeight < m.height := hsame.not_lt
      rw [if_neg hge]
      exact ⟨hsame, hview⟩
  have hle : s.node.lastCommittedHeight ≤ m.height := by
    rcases hfront with hlt | ⟨hsame, -⟩
    · exact hlt.le
    · exact hsame.le
  obtain ⟨hstored, hreached⟩ := h.insert hparent
    (writeSnapshot s.storage m actions).blocks fun hash b hget => by
      rw [hblocks, Table.get?_insert, ← hhash] at hget
      split_ifs at hget with hsame
      · exact .inl ⟨hsame, (Option.some.inj hget).symm⟩
      · exact .inr ⟨hsame, hget⟩
  constructor
  · simp [hlast, hraised]
  · intro r hr
    refine ⟨m.block, by simp, ?_⟩
    rw [hlast] at hr
    rw [hheight, hview, hhash]
    exact (Option.some.inj hr).symm
  · intro c hc
    rw [hraised.1]
    rcases List.mem_append.mp hc with hc | hc
    · exact (h.highest c hc).trans hle
    · rw [List.mem_singleton.mp hc, hheight]
  · simp [hlast]
  · intro c hc hkept
    rw [hraised.1] at hkept
    rw [hheights]
    rcases List.mem_append.mp hc with hc | hc
    · refine h.indexed c hc ?_
      unfold Retained at hkept ⊢
      omega
    · rw [List.mem_singleton.mp hc, hheight, hhash]
      exact hindexed
  · intro height hash hget
    rw [hheights] at hget
    obtain ⟨b, hmem, hb⟩ := h.index height hash hget
    exact ⟨b, List.mem_append_left _ hmem, hb⟩
  · exact hstored
  · exact hreached

theorem Coherent.persist (h : s.Coherent P cfg) {pending : Table BlockHash Block}
    {updates : List StateUpdate} (hr : s.Rises P (.persist pending updates)) :
    (s.step P cfg (.persist pending updates)).Coherent P cfg := by
  obtain ⟨hheights, hlast⟩ := persistUpdates_keeps s.storage pending updates
  have hblocks : ∀ hash b, (s.storage.persistUpdates pending updates).blocks.get? hash = some b →
      s.storage.blocks.get? hash = some b ∨
        pending.get? hash = some b ∧ b ∈ referencedBlocks pending updates :=
    fun _ _ hb => get?_persistUpdates_referenced hb
  unfold Archive.step
  simp only
  constructor
  · rw [hlast]
    exact h.counters
  · rw [hlast]
    exact h.named
  · exact h.highest
  · rw [hlast]
    exact h.recorded
  · rw [hheights]
    exact h.indexed
  · rw [hheights]
    exact h.index
  · intro hash b hget
    rcases hblocks hash b hget with hold | ⟨-, href⟩
    · exact (h.stored hash b hold).imp_right (List.mem_append_left _)
    · exact .inr (List.mem_append_right _ href)
  · intro c hc hash b hhash hget
    rcases hblocks hash b hget with hold | ⟨hpending, href⟩
    · exact h.reached c hc hash b hhash hold
    · exact hr hash b hpending href ⟨c, hc, hhash⟩

theorem Coherent.restart (h : s.Coherent P cfg) : (s.step P cfg .restart).Coherent P cfg := by
  unfold Archive.step
  simp only
  cases hn : recover P cfg s.storage with
  | none => exact h
  | some n =>
    obtain ⟨hheight, hview⟩ := counters_recover hn
    have hsame := hheight.trans h.counters.1
    constructor
    · exact ⟨hheight.symm, hview.symm⟩
    · exact h.named
    · intro c hc
      rw [hsame]
      exact h.highest c hc
    · exact h.recorded
    · intro b hb hkept
      rw [hsame] at hkept
      exact h.indexed b hb hkept
    · exact h.index
    · exact h.stored
    · exact h.reached

theorem Coherent.step (h : s.Coherent P cfg) (input : ArchiveInput) (hr : s.Rises P input) :
    (s.step P cfg input).Coherent P cfg := by
  cases input with
  | commit block => exact h.commit hr
  | restore m => exact h.restore hr
  | persist pending updates => exact h.persist hr
  | other storage node =>
    exact ⟨h.counters, h.named, h.highest, h.recorded, h.indexed, h.index, h.stored, h.reached⟩
  | restart => exact h.restart

/-- A restore leaves the index as it is, so that the record is not as it should be once the block
of a snapshot is restored that the index does not have. -/
theorem not_namesOne_restore {m : SnapshotManifest} (hheight : m.block.header.height = m.height)
    (hhash : m.block.hash P = m.blockHash)
    (h : s.storage.heights.get? m.height ≠ some m.blockHash) :
    ¬ (s.step P cfg (.restore m)).NamesOne P cfg := by
  intro hnames
  obtain ⟨-, hheights, hlast⟩ := writeSnapshot_fields s.storage m
    (s.node.core.adoptSnapshot P m.block m.commitQc m.view).2
  have hmem : m.block ∈ (s.step P cfg (.restore m)).committed :=
    List.mem_append_right _ (List.mem_singleton.mpr rfl)
  have hkept : Retained cfg m.height m.block.header.height := by
    unfold Retained
    omega
  have hfound := hnames.indexed _ hlast m.block hmem hkept
  rw [hheight, hhash] at hfound
  exact h (hheights ▸ hfound)

/-- In a run whose commits and restores are at the front, and which restores no block that is not
in the index, after every write the record names one block, and the index has all blocks. -/
theorem last_committed_names_one {n : ConsensusNode} (hn : recover P cfg .empty = some n)
    {inputs : List ArchiveInput}
    (hinputs : Along (Archive.step P cfg) (Rises P) ⟨.empty, n, [], []⟩ inputs) :
    (run (Archive.step P cfg) ⟨.empty, n, [], []⟩ inputs).NamesOne P cfg :=
  (hinputs.invariant (fun _ input hr h => h.step input hr) (coherent_start hn)).namesOne

end Archive

namespace Sample

def lower : Block := blockOn root 10 0 []

def upper : Block := blockOn lower 11 0 []

def archiving (inputs : List ArchiveInput) : Option Archive :=
  (recover timed config .empty).map fun n =>
    run (Archive.step timed config) ⟨.empty, n, [], []⟩ inputs

instance (s : Archive) (height view : ℕ) : Decidable (s.AtFront height view) :=
  inferInstanceAs (Decidable (_ ∨ _))

instance (s : Archive) (block : Block) : Decidable (s.ParentCommitted block) :=
  inferInstanceAs (Decidable (∀ p ∈ s.referenced, _))

instance (P : Primitives) (s : Archive) (block : Block) :
    Decidable (s.Rises P (.commit block)) := inferInstanceAs (Decidable (_ ∧ _ ∧ _))

instance (P : Primitives) (s : Archive) (m : SnapshotManifest) :
    Decidable (s.Rises P (.restore m)) := inferInstanceAs (Decidable (_ ∧ _ ∧ _ ∧ _))

/-- A commit, its own snapshot again, a restart, and the next commit. -/
def restoredRun : List ArchiveInput :=
  [.commit lower, .restore (snapshotOf lower), .restart, .commit upper]

theorem adopting_names_one : ∃ s ∈ archiving restoredRun,
    s.NamesOne timed config ∧ s.storage.lastCommitted = some ⟨2, 11, upper.hash timed⟩ := by
  obtain ⟨n, hn, hcommit, hrestore, hcommit', hlast⟩ : ∃ n ∈ recover timed config .empty,
      Archive.Rises timed ⟨.empty, n, [], []⟩ (.commit lower) ∧
      Archive.Rises timed (Archive.step timed config ⟨.empty, n, [], []⟩ (.commit lower))
        (.restore (snapshotOf lower)) ∧
      Archive.Rises timed (run (Archive.step timed config) ⟨.empty, n, [], []⟩
        [.commit lower, .restore (snapshotOf lower), .restart]) (.commit upper) ∧
      (run (Archive.step timed config) ⟨.empty, n, [], []⟩ restoredRun).storage.lastCommitted =
        some ⟨2, 11, upper.hash timed⟩ := by decide +kernel
  have hrises : Along (Archive.step timed config) (Archive.Rises timed) ⟨.empty, n, [], []⟩
      restoredRun := ⟨hcommit, hrestore, trivial, hcommit', trivial⟩
  have hnames := Archive.last_committed_names_one hn hrises
  exact ⟨_, Option.map_eq_some_iff.mpr ⟨n, hn, rfl⟩, hnames, hlast⟩

/-- A late commit leaves a record that names no block, and an adopted block is not in the index. -/
theorem late_commit_names_none :
    (∃ s ∈ archiving [.commit upper, .commit lower], ¬ s.NamesOne timed config) ∧
      ∃ s ∈ archiving [.restore (snapshotOf upper)], ¬ s.NamesOne timed config := by
  obtain ⟨⟨s, hs, r, hr, hnone⟩, n, hn, hheight, hhash, hmissing⟩ :
      (∃ s ∈ archiving [.commit upper, .commit lower], ∃ r ∈ s.storage.lastCommitted,
        ∀ b ∈ s.committed, r ≠ ⟨b.header.height, b.header.view, b.hash timed⟩) ∧
      ∃ n ∈ recover timed config .empty,
        (snapshotOf upper).block.header.height = (snapshotOf upper).height ∧
        (snapshotOf upper).block.hash timed = (snapshotOf upper).blockHash ∧
        Storage.empty.heights.get? (snapshotOf upper).height ≠
          some (snapshotOf upper).blockHash := by decide +kernel
  refine ⟨⟨s, hs, fun h => ?_⟩, _, Option.map_eq_some_iff.mpr ⟨n, hn, rfl⟩, ?_⟩
  · obtain ⟨b, hb, he, -⟩ := h.named r hr
    exact hnone b hb he
  · exact Archive.not_namesOne_restore hheight hhash hmissing

end Sample

end Boule
