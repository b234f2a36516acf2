import Boule.Lib.Lineage
import Boule.Node.CommitRecord

/-! `load_block_range_from_storage` walks from the tip towards the ancestors, so that its cap
keeps the highest blocks of the range that was asked for. -/
namespace Boule
open Lineage

/-- The block that the walk goes on to. -/
def parentBlock (storage : Storage) (block : Block) : Option Block :=
  if block.header.height = 0 then none else storage.blocks.get? block.header.parentHash

/-- The block stored under `tip`, or one of its stored ancestors. The zero hash is no block's. -/
def InChain (storage : Storage) (tip : BlockHash) (block : Block) : Prop :=
  tip ≠ 0 ∧ ∃ top ∈ storage.blocks.get? tip, Ancestor (parentBlock storage) top block

/-- The blocks of the chain with heights in the range. -/
def chainWithin (storage : Storage) (tip : BlockHash) (fromHeight toHeight : ℕ) : Set Block :=
  {b | InChain storage tip b ∧ fromHeight ≤ b.header.height ∧ b.header.height ≤ toHeight}

/-- The chain is linked by hashes, and heights go up by one. -/
def ChainLinked (P : Primitives) (storage : Storage) (tip : BlockHash) : Prop :=
  ∀ b, InChain storage tip b → ∀ p ∈ parentBlock storage b,
    p.hash P = b.header.parentHash ∧ b.header.height = p.header.height + 1

/-- The height of a stored block, and zero for any other hash. -/
def Storage.heightOf (storage : Storage) (hash : BlockHash) : ℕ :=
  (storage.blocks.get? hash).elim 0 (·.header.height)

/-- The loop of `load_block_range_from_storage`, round by round; `none` while it has not
ended. -/
def walkBackRounds (storage : Storage) (fromHeight toHeight cap : ℕ) :
    ℕ → BlockHash → List Block → Option (List Block)
  | 0, _, _ => none
  | n + 1, cursor, collected =>
    match storage.blocks.get? cursor with
    | none => some collected
    | some block =>
      let h := block.header.height
      if h < fromHeight then some collected
      else
        let taken := if h ≤ toHeight then collected ++ [block] else collected
        if h ≤ toHeight && cap ≤ taken.length then some taken
        else if h = 0 then some taken
        else walkBackRounds storage fromHeight toHeight cap n block.header.parentHash taken

def loadBlockRangeRounds (storage : Storage) (rounds : ℕ) (tipHash : BlockHash)
    (fromHeight toHeight cap : ℕ) : Option (List Block) :=
  if toHeight < fromHeight || cap = 0 then some []
  else if tipHash = 0 then some []
  else (walkBackRounds storage fromHeight toHeight cap rounds tipHash []).map List.reverse

/-- A part of the chain: consecutive blocks, the lowest first, at most `cap` of them. -/
structure ChainPart (P : Primitives) (storage : Storage) (tip : BlockHash)
    (fromHeight toHeight cap : ℕ) (blocks : List Block) : Prop where
  linked : blocks.IsChain fun a b => b.header.parentHash = a.hash P ∧
    parentBlock storage b = some a ∧ b.header.height = a.header.height + 1
  within : ∀ b ∈ blocks, b ∈ chainWithin storage tip fromHeight toHeight
  short : blocks.length ≤ cap

/-- What is missing is above what is there, and missing for the cap alone. -/
def LowestPart (storage : Storage) (tip : BlockHash) (fromHeight toHeight cap : ℕ)
    (blocks : List Block) : Prop :=
  ∀ b ∈ chainWithin storage tip fromHeight toHeight, b ∉ blocks →
    blocks.length = cap ∧ ∀ a ∈ blocks, a.header.height < b.header.height

variable {P : Primitives} {storage : Storage} {tip cursor : BlockHash} {top : Block}
  {fromHeight toHeight cap rounds : ℕ} {collected r : List Block}

/-- A loop that has ended has the same result under any bound. -/
theorem walkBack_of_rounds
    (h : walkBackRounds storage fromHeight toHeight cap rounds cursor collected = some r) :
    walkBack storage fromHeight toHeight cap rounds cursor collected = r := by
  induction rounds generalizing cursor collected with
  | zero => cases h
  | succ n ih =>
    unfold walkBackRounds at h
    unfold walkBack
    cases hget : storage.blocks.get? cursor with
    | none =>
      rw [hget] at h
      exact Option.some.inj h
    | some block =>
      rw [hget] at h
      simp only at h ⊢
      generalize (if block.header.height ≤ toHeight then collected ++ [block]
        else collected) = taken at h ⊢
      split at h
      · rw [if_pos ‹_›]
        exact Option.some.inj h
      · rw [if_neg ‹_›]
        split at h
        · rw [if_pos ‹_›]
          exact Option.some.inj h
        · rw [if_neg ‹_›]
          split at h
          · rw [if_pos ‹_›]
            exact Option.some.inj h
          · rw [if_neg ‹_›]
            exact ih h

/-- The loop ends, and takes the first blocks of the range on its way down. -/
theorem walkBackRounds_eq
    (hranked : Ranked (parentBlock storage) (·.header.height) top)
    (hget : storage.blocks.get? cursor = some top) (hrounds : top.header.height < rounds)
    (hcap : collected.length < cap) :
    walkBackRounds storage fromHeight toHeight cap rounds cursor collected =
      some (collected ++ (segment (parentBlock storage) (·.header.height) fromHeight toHeight
        rounds top).take (cap - collected.length)) := by
  induction rounds generalizing cursor top collected with
  | zero => omega
  | succ n ih =>
    -- What follows a block that does not end the loop.
    have hlater : ∀ taken : List Block, taken.length < cap →
        (if top.header.height = 0 then some taken
          else walkBackRounds storage fromHeight toHeight cap n top.header.parentHash taken) =
        some (taken ++ ((parentBlock storage top).elim [] (segment (parentBlock storage)
          (·.header.height) fromHeight toHeight n)).take (cap - taken.length)) := by
      intro taken htaken
      by_cases hzero : top.header.height = 0
      · have hparent : parentBlock storage top = none := if_pos hzero
        rw [if_pos hzero, hparent, Option.elim_none, List.take_nil, List.append_nil]
      · have hparent : parentBlock storage top =
            storage.blocks.get? top.header.parentHash := if_neg hzero
        rw [if_neg hzero]
        cases hp : storage.blocks.get? top.header.parentHash with
        | none =>
          obtain ⟨m, rfl⟩ : ∃ m, n = m + 1 := ⟨n - 1, by omega⟩
          rw [walkBackRounds, hp, hparent, hp, Option.elim_none, List.take_nil,
            List.append_nil]
        | some p =>
          obtain ⟨hheight, hlower⟩ := hranked.down (hparent.trans hp)
          rw [hparent, hp, Option.elim_some]
          exact ih hlower hp (by omega) htaken
    rw [walkBackRounds, hget, segment_succ]
    simp only
    by_cases hlow : top.header.height < fromHeight
    · rw [if_pos hlow, if_pos hlow, List.take_nil, List.append_nil]
    rw [if_neg hlow, if_neg hlow]
    by_cases hhigh : top.header.height ≤ toHeight
    · have hlen : (collected ++ [top]).length = collected.length + 1 := by
        rw [List.length_append, List.length_singleton]
      rw [if_pos hhigh, if_pos hhigh, List.singleton_append]
      by_cases hfull : cap ≤ collected.length + 1
      · have hone : cap - collected.length = 1 := by omega
        rw [if_pos (by simp [hhigh, hlen, hfull]), hone, List.take_succ_cons, List.take_zero]
      · have hroom : cap - collected.length = cap - (collected ++ [top]).length + 1 := by omega
        have hshort : (collected ++ [top]).length < cap := by omega
        rw [if_neg (by simp [hlen, hfull]), hlater _ hshort, hroom, List.take_succ_cons,
          List.append_assoc, List.singleton_append]
    · rw [if_neg hhigh, if_neg hhigh, if_neg (by simp [hhigh]), List.nil_append]
      exact hlater _ hcap

theorem ChainLinked.ranked (h : ChainLinked P storage tip) (htip : tip ≠ 0)
    (hget : storage.blocks.get? tip = some top) :
    Ranked (parentBlock storage) (·.header.height) top :=
  fun b hb p hp => (h b ⟨htip, top, hget, hb⟩ p hp).2

theorem mem_chainWithin {b : Block} (htip : tip ≠ 0) (hget : storage.blocks.get? tip = some top) :
    b ∈ chainWithin storage tip fromHeight toHeight ↔ Ancestor (parentBlock storage) top b ∧
      fromHeight ≤ b.header.height ∧ b.header.height ≤ toHeight := by
  have hchain : InChain storage tip b ↔ Ancestor (parentBlock storage) top b := by
    constructor
    · rintro ⟨-, t, ht, hb⟩
      rw [hget] at ht
      exact Option.some.inj ht ▸ hb
    · exact fun hb => ⟨htip, top, hget, hb⟩
  exact and_congr_left fun _ => hchain

theorem chainWithin_eq (htip : tip ≠ 0) (hget : storage.blocks.get? tip = some top) :
    chainWithin storage tip fromHeight toHeight = {b | Ancestor (parentBlock storage) top b ∧
      fromHeight ≤ b.header.height ∧ b.header.height ≤ toHeight} :=
  Set.ext fun _ => mem_chainWithin htip hget

theorem chainWithin_eq_empty (h : tip = 0 ∨ storage.blocks.get? tip = none) :
    chainWithin storage tip fromHeight toHeight = ∅ := by
  apply Set.eq_empty_of_forall_notMem
  rintro b ⟨⟨htip, top, hget, -⟩, -⟩
  rcases h with h | h
  · exact htip h
  · rw [h] at hget
    cases hget

/-- The loop of a load ends, and the load is the top of the range, turned round. -/
theorem loadBlockRange_eq (h : ChainLinked P storage tip) (htip : tip ≠ 0)
    (hget : storage.blocks.get? tip = some top) (hrounds : storage.heightOf tip < rounds)
    (hrange : fromHeight ≤ toHeight) :
    loadBlockRangeRounds storage rounds tip fromHeight toHeight cap =
      some ((segment (parentBlock storage) (·.header.height) fromHeight toHeight rounds
        top).take cap).reverse := by
  unfold loadBlockRangeRounds
  by_cases hcap : cap = 0
  · rw [if_pos (by simp [hcap]), hcap, List.take_zero, List.reverse_nil]
  have htop : top.header.height < rounds := by
    rwa [Storage.heightOf, hget, Option.elim_some] at hrounds
  rw [if_neg (by simp [hcap, hrange]), if_neg htip,
    walkBackRounds_eq (h.ranked htip hget) hget htop (by simp; omega)]
  rfl

theorem loadBlockRange_of_rounds
    (h : loadBlockRangeRounds storage rounds tip fromHeight toHeight cap = some r) :
    loadBlockRangeFromStorage storage rounds tip fromHeight toHeight cap = r := by
  unfold loadBlockRangeRounds at h
  unfold loadBlockRangeFromStorage
  split_ifs at h ⊢
  · exact Option.some.inj h
  · exact Option.some.inj h
  · obtain ⟨taken, htaken, rfl⟩ := Option.map_eq_some_iff.mp h
    rw [walkBack_of_rounds htaken]

/-- Nothing is loaded under a hash without a block. -/
theorem loadBlockRangeRounds_of_empty (hempty : tip = 0 ∨ storage.blocks.get? tip = none)
    (hrounds : 0 < rounds) :
    loadBlockRangeRounds storage rounds tip fromHeight toHeight cap = some [] := by
  obtain ⟨n, rfl⟩ : ∃ n, rounds = n + 1 := ⟨rounds - 1, by omega⟩
  unfold loadBlockRangeRounds
  split_ifs with hnone htip
  · rfl
  · rfl
  · rw [walkBackRounds, hempty.resolve_left htip]
    rfl

theorem encard_chainWithin_le (h : ChainLinked P storage tip) :
    (chainWithin storage tip fromHeight toHeight).encard ≤ (toHeight + 1 - fromHeight : ℕ) := by
  by_cases hempty : tip = 0 ∨ storage.blocks.get? tip = none
  · rw [chainWithin_eq_empty hempty, Set.encard_empty]
    exact zero_le
  · obtain ⟨htip, hget⟩ := not_or.mp hempty
    obtain ⟨top, hget⟩ := Option.ne_none_iff_exists'.mp hget
    have hranked := h.ranked htip hget
    rw [chainWithin_eq htip hget, encard_between hranked (Nat.lt_succ_self _), Nat.cast_le]
    exact length_segment_le hranked

/-- A cap of as many blocks as there are heights never binds. -/
theorem load_whole_of_wide (h : ChainLinked P storage tip) (hrange : fromHeight ≤ toHeight)
    (hrounds : storage.heightOf tip < rounds) (hwide : toHeight < fromHeight + cap) {b : Block} :
    b ∈ loadBlockRangeFromStorage storage rounds tip fromHeight toHeight cap ↔
      b ∈ chainWithin storage tip fromHeight toHeight := by
  by_cases hempty : tip = 0 ∨ storage.blocks.get? tip = none
  · rw [loadBlockRange_of_rounds (loadBlockRangeRounds_of_empty hempty (by omega)),
      chainWithin_eq_empty hempty]
    exact iff_of_false List.not_mem_nil (Set.notMem_empty b)
  · obtain ⟨htip, hget⟩ := not_or.mp hempty
    obtain ⟨top, hget⟩ := Option.ne_none_iff_exists'.mp hget
    have hranked := h.ranked htip hget
    have htop : top.header.height < rounds := by
      rwa [Storage.heightOf, hget, Option.elim_some] at hrounds
    have hlen : (segment (parentBlock storage) (·.header.height) fromHeight toHeight rounds
        top).length ≤ toHeight + 1 - fromHeight := length_segment_le hranked
    rw [loadBlockRange_of_rounds (loadBlockRange_eq h htip hget hrounds hrange),
      List.mem_reverse, List.take_of_length_le (by omega), mem_segment hranked htop]
    exact (mem_chainWithin htip hget).symm

/-- The loading of a range ends, and gives consecutive blocks of the range. They are its lowest
part exactly when the cap lets them be the whole of it. -/
theorem range_load_lowest_iff (h : ChainLinked P storage tip) (hrange : fromHeight ≤ toHeight)
    (hrounds : storage.heightOf tip < rounds) :
    ∃ blocks, loadBlockRangeFromStorage storage rounds tip fromHeight toHeight cap = blocks ∧
      loadBlockRangeRounds storage rounds tip fromHeight toHeight cap = some blocks ∧
      ChainPart P storage tip fromHeight toHeight cap blocks ∧
      (LowestPart storage tip fromHeight toHeight cap blocks ↔
        cap = 0 ∨ (chainWithin storage tip fromHeight toHeight).encard ≤ cap) := by
  by_cases hempty : tip = 0 ∨ storage.blocks.get? tip = none
  · have hload : loadBlockRangeRounds storage rounds tip fromHeight toHeight cap = some [] :=
      loadBlockRangeRounds_of_empty hempty (by omega)
    refine ⟨[], loadBlockRange_of_rounds hload, hload, ⟨.nil, by simp, by simp⟩, ?_⟩
    unfold LowestPart
    rw [chainWithin_eq_empty hempty]
    simp
  · obtain ⟨htip, hget⟩ := not_or.mp hempty
    obtain ⟨top, hget⟩ := Option.ne_none_iff_exists'.mp hget
    have hload : loadBlockRangeRounds storage rounds tip fromHeight toHeight cap = _ :=
      loadBlockRange_eq h htip hget hrounds hrange
    have hranked := h.ranked htip hget
    have htop : top.header.height < rounds := by
      rwa [Storage.heightOf, hget, Option.elim_some] at hrounds
    refine ⟨_, loadBlockRange_of_rounds hload, hload, ⟨?_, ?_, ?_⟩, ?_⟩
    · rw [List.isChain_reverse]
      have hchain : (segment (parentBlock storage) (·.header.height) fromHeight toHeight rounds
          top).IsChain _ := isChain_segment hranked
      refine (hchain.take cap).imp_of_mem_imp fun b a hb _ hp => ?_
      have hb := (mem_segment hranked htop).mp (List.mem_of_mem_take hb)
      obtain ⟨hhash, hheight⟩ := h b ⟨htip, top, hget, hb.1⟩ a hp
      exact ⟨hhash.symm, hp, hheight⟩
    · intro b hb
      have hb := List.mem_of_mem_take (List.mem_reverse.mp hb)
      exact (mem_chainWithin htip hget).mpr ((mem_segment hranked htop).mp hb)
    · rw [List.length_reverse]
      exact List.length_take_le _ _
    · have hset : chainWithin storage tip fromHeight toHeight = _ := chainWithin_eq htip hget
      rw [hset, encard_between hranked htop, Nat.cast_le,
        ← take_lowest_iff (pairwise_segment hranked)]
      unfold LowestPart
      simp only [hset, List.mem_reverse, List.length_reverse, Set.mem_ofPred_eq,
        mem_segment hranked htop]

theorem InChain.stored {b : Block} (h : InChain storage tip b) :
    ∃ hash, storage.blocks.get? hash = some b := by
  obtain ⟨-, top, hget, hb⟩ := h
  induction hb with
  | refl => exact ⟨tip, hget⟩
  | @tail x y _ hp =>
    have hp : parentBlock storage x = some y := hp
    unfold parentBlock at hp
    split_ifs at hp
    exact ⟨_, hp⟩

/-- The chain has one block of each height. -/
theorem ChainLinked.eq_of_height_eq (h : ChainLinked P storage tip) {b c : Block}
    (hb : InChain storage tip b) (hc : InChain storage tip c)
    (hheight : b.header.height = c.header.height) : b = c := by
  obtain ⟨htip, top, hget, hb⟩ := hb
  obtain ⟨-, top', hget', hc⟩ := hc
  rw [hget] at hget'
  obtain rfl := Option.some.inj hget'
  exact (h.ranked htip hget).eq_of_rank_eq hb hc hheight

theorem chainLinked_of_forall (h : ∀ e ∈ storage.blocks.toList, ∀ p ∈ parentBlock storage e.2,
    p.hash P = e.2.header.parentHash ∧ e.2.header.height = p.header.height + 1) :
    ChainLinked P storage tip := by
  intro b hb
  obtain ⟨hash, hget⟩ := hb.stored
  exact h (hash, b) ((storage.blocks.mem_toList hash b).mpr hget)

namespace Sample

/-- The disk of a node that has committed two blocks. -/
def chainStore : Storage :=
  ((Storage.empty.putBlock (root.hash timed) root).putBlock (lower.hash timed) lower).putBlock
    (upper.hash timed) upper

theorem chainStore_linked : ChainLinked timed chainStore (upper.hash timed) :=
  chainLinked_of_forall (by decide +kernel)

/-- A range of two blocks with a cap of one gives the upper block, with a cap of two both. -/
theorem chainStore_loads :
    (∃ blocks, loadBlockRangeFromStorage chainStore 3 (upper.hash timed) 1 2 2 = blocks ∧
      loadBlockRangeRounds chainStore 3 (upper.hash timed) 1 2 2 = some blocks ∧
      ChainPart timed chainStore (upper.hash timed) 1 2 2 blocks ∧
      (LowestPart chainStore (upper.hash timed) 1 2 2 blocks ↔
        2 = 0 ∨ (chainWithin chainStore (upper.hash timed) 1 2).encard ≤ (2 : ℕ))) ∧
      loadBlockRangeFromStorage chainStore 3 (upper.hash timed) 1 2 2 = [lower, upper] :=
  ⟨range_load_lowest_iff chainStore_linked (by decide) (by decide +kernel), by decide +kernel⟩

theorem upper_cut_off_lower : ChainLinked timed chainStore (upper.hash timed) ∧
    ¬ LowestPart chainStore (upper.hash timed) 1 2 1
      (loadBlockRangeFromStorage chainStore 3 (upper.hash timed) 1 2 1) := by
  refine ⟨chainStore_linked, fun h => ?_⟩
  have hload : loadBlockRangeFromStorage chainStore 3 (upper.hash timed) 1 2 1 = [upper] := by
    decide +kernel
  have htip : upper.hash timed ≠ 0 := by decide +kernel
  have hget : chainStore.blocks.get? (upper.hash timed) = some upper := by decide +kernel
  have hparent : parentBlock chainStore upper = some lower := by decide +kernel
  have hlower : lower ∈ chainWithin chainStore (upper.hash timed) 1 2 :=
    (mem_chainWithin htip hget).mpr ⟨.single hparent, by decide +kernel, by decide +kernel⟩
  rw [hload] at h
  have habove := (h lower hlower (by decide +kernel)).2 upper (List.mem_singleton_self _)
  revert habove
  decide +kernel

end Sample

end Boule
