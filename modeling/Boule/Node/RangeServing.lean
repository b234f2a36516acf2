import Boule.HotStuff.ReplayAgree
import Boule.Lib.Merged
import Boule.Node.Bodies
import Boule.Node.RangeWalk

/-! A range of blocks as a peer serves it and as the requester takes it in. -/
namespace Boule
open ConsensusNode Lineage Merged

/-! ### Serving and taking in -/

/-- The pending blocks in the order in which the map yields them. -/
def HotStuffState.pendingValues (order : IterOrder) (s : HotStuffState) : List Block :=
  (order.apply s.pendingBlocks.keys).filterMap s.pendingBlocks.get?

/-- The blocks of the range among the pending ones, and then those of the committed chain. -/
def ConsensusNode.rangeCandidates (order : IterOrder) (rounds : ℕ) (storage : Storage)
    (n : ConsensusNode) (fromHeight toHeight : ℕ) : List Block :=
  let out := (n.core.state.pendingValues order).filter fun b =>
    fromHeight ≤ b.header.height && b.header.height ≤ toHeight
  out ++ storage.lastCommitted.elim [] fun lc =>
    loadBlockRangeFromStorage storage rounds lc.lastCommittedHash fromHeight toHeight
      blockRangeResponseMaxBlocks

def ConsensusNode.collectBlockRange (P : Primitives) (order : IterOrder) (rounds : ℕ)
    (storage : Storage) (n : ConsensusNode) (fromHeight toHeight : ℕ) : List Block :=
  if toHeight < fromHeight then []
  else
    let out := distinctBy (·.hash P) [] (n.rangeCandidates order rounds storage fromHeight toHeight)
    (out.insertionSort fun a b => a.header.height ≤ b.header.height).take
      blockRangeResponseMaxBlocks

/-- Taking the message in, the node puts the block among its pending blocks. -/
def ConsensusNode.TakesIn (P : Primitives) (n : ConsensusNode) (d : Dispatch) (b : Block) :
    Prop :=
  ∃ earlier later, n.inserts P d = earlier ++ b :: later ∧
    (n.insertPendingBlocks P (earlier ++ [b])).core.state.getPending (b.hash P) = some b

variable {P : Primitives} {storage : Storage} {server requester : ConsensusNode}
  {order : IterOrder} {tip : BlockHash} {fromHeight toHeight rounds : ℕ} {peer : NodeId}
  {b c : Block}

theorem mem_pendingValues {s : HotStuffState} : b ∈ s.pendingValues order ↔
    ∃ hash, s.getPending hash = some b := by
  unfold HotStuffState.pendingValues
  rw [List.mem_filterMap]
  constructor
  · rintro ⟨hash, -, hget⟩
    exact ⟨hash, hget⟩
  · rintro ⟨hash, hget⟩
    have hkey : hash ∈ s.pendingBlocks.keys :=
      AList.mem_keys.mpr (AList.lookup_isSome.mp (Option.isSome_of_mem hget))
    exact ⟨hash, (order.perm _).mem_iff.mpr hkey, hget⟩

theorem takesIn_iff {d : Dispatch} : requester.TakesIn P d b ↔ b ∈ requester.inserts P d := by
  constructor
  · rintro ⟨earlier, later, heq, -⟩
    rw [heq]
    exact List.mem_append_right _ (List.mem_cons_self ..)
  · intro hb
    obtain ⟨earlier, later, heq⟩ := List.append_of_mem hb
    refine ⟨earlier, later, heq, ?_⟩
    unfold ConsensusNode.insertPendingBlocks
    rw [List.foldl_append, List.foldl_cons, List.foldl_nil]
    generalize earlier.foldl _ _ = core
    unfold HotStuffCore.insertPendingBlock HotStuffState.insertPending HotStuffState.getPending
    simp only [Table.get?_insert, if_true]

/-- Of blocks in the order of their heights, the first one of each height is taken. -/
theorem mem_takenFromRange {blocks : List Block} {last : Option ℕ}
    (hsorted : blocks.Pairwise fun a b => a.header.height ≤ b.header.height)
    (hrange : ∀ b ∈ blocks, fromHeight ≤ b.header.height ∧ b.header.height ≤ toHeight)
    (hlast : ∀ h ∈ last, ∀ b ∈ blocks, h ≤ b.header.height) :
    c ∈ takenFromRange fromHeight toHeight last blocks ↔
      last ≠ some c.header.height ∧
        blocks.find? (·.header.height = c.header.height) = some c := by
  induction blocks generalizing last with
  | nil => simp [takenFromRange]
  | cons b bs ih =>
    obtain ⟨hfirst, hsorted⟩ := List.pairwise_cons.mp hsorted
    have hrange' : ∀ x ∈ bs, fromHeight ≤ x.header.height ∧ x.header.height ≤ toHeight :=
      fun x hx => hrange x (List.mem_cons_of_mem _ hx)
    obtain ⟨hlow, hhigh⟩ := hrange b (List.mem_cons_self ..)
    have hin : ¬ (b.header.height < fromHeight || toHeight < b.header.height) = true := by
      simp [hlow, hhigh]
    rw [takenFromRange, if_neg hin, List.find?_cons]
    by_cases hskip : last = some b.header.height
    · have hlast' : ∀ h ∈ last, ∀ x ∈ bs, h ≤ x.header.height :=
        fun h hh x hx => hlast h hh x (List.mem_cons_of_mem _ hx)
      rw [if_pos (by simp [hskip]), ih hsorted hrange' hlast', hskip]
      by_cases hheight : b.header.height = c.header.height
      · simp [hheight]
      · rw [decide_eq_false hheight]
    · have htake : ¬ last.any (b.header.height ≤ ·) = true := by
        rw [Option.any_eq_true]
        rintro ⟨h, hh, hle⟩
        have hle := of_decide_eq_true hle
        have hge := hlast h hh b (List.mem_cons_self ..)
        exact hskip (hh.trans (congrArg some (by omega)))
      rw [if_neg htake, List.mem_cons,
        ih hsorted hrange' fun h hh x hx => Option.some.inj hh ▸ hfirst x hx]
      by_cases hheight : b.header.height = c.header.height
      · rw [decide_eq_true hheight, hheight]
        rw [hheight] at hskip
        simp [hskip, eq_comm]
      · rw [decide_eq_false hheight]
        have hne : c ≠ b := fun he => hheight (by rw [he])
        have hfound : bs.find? (·.header.height = c.header.height) = some c →
            last ≠ some c.header.height := by
          intro hfind heq
          have hmem := List.mem_of_find?_eq_some hfind
          have hle := hlast _ heq b (List.mem_cons_self ..)
          have hge := hfirst c hmem
          exact hheight (by omega)
        simp only [hne, false_or, ne_eq, Option.some.injEq, hheight, not_false_eq_true,
          true_and]
        exact ⟨fun hfind => ⟨hfound hfind, hfind⟩, fun h => h.2⟩

/-! ### What is delivered -/

/-- The node has committed every height of the range and kept its blocks, a response has room
for as many blocks, and the hashes of its blocks do not collide. -/
structure CoversRange (P : Primitives) (storage : Storage) (n : ConsensusNode) (tip : BlockHash)
    (fromHeight toHeight : ℕ) : Prop where
  recorded : ∃ lc ∈ storage.lastCommitted, lc.lastCommittedHash = tip
  linked : ChainLinked P storage tip
  covered : ∀ h, fromHeight ≤ h → h ≤ toHeight → ∃ b, InChain storage tip b ∧ b.header.height = h
  span : toHeight < fromHeight + blockRangeResponseMaxBlocks
  free : CollisionFree P
    (n.core.state.pendingBlocks.toList.map Prod.snd ++ storage.blocks.toList.map Prod.snd)

/-- The hashes of the pending and the committed blocks in the range, its top excepted. -/
def hashesBelow (P : Primitives) (storage : Storage) (n : ConsensusNode) (order : IterOrder)
    (tip : BlockHash) (fromHeight toHeight : ℕ) : Set BlockHash :=
  {hash | ∃ b, (b ∈ n.core.state.pendingValues order ∨ InChain storage tip b) ∧
    fromHeight ≤ b.header.height ∧ b.header.height < toHeight ∧ b.hash P = hash}

section
variable (h : CoversRange P storage server tip fromHeight toHeight)
  (hrounds : storage.heightOf tip < rounds)
include h hrounds

theorem CoversRange.mem_candidates (hrange : fromHeight ≤ toHeight) :
    b ∈ server.rangeCandidates order rounds storage fromHeight toHeight ↔
      (b ∈ server.core.state.pendingValues order ∨ InChain storage tip b) ∧
        fromHeight ≤ b.header.height ∧ b.header.height ≤ toHeight := by
  obtain ⟨lc, hlc, rfl⟩ := h.recorded
  rw [rangeCandidates, Option.mem_def.mp hlc, Option.elim_some, List.mem_append, List.mem_filter,
    load_whole_of_wide h.linked hrange hrounds h.span, Bool.and_eq_true, decide_eq_true_iff,
    decide_eq_true_iff, or_and_right]
  rfl

omit hrounds in
theorem CoversRange.header_eq (hb : b ∈ server.core.state.pendingValues order ∨
    InChain storage tip b) (hc : c ∈ server.core.state.pendingValues order ∨
    InChain storage tip c) (hhash : b.hash P = c.hash P) : b.header = c.header := by
  have hmem : ∀ {x : Block}, x ∈ server.core.state.pendingValues order ∨ InChain storage tip x →
      x ∈ server.core.state.pendingBlocks.toList.map Prod.snd ++
        storage.blocks.toList.map Prod.snd := by
    rintro x (hx | hx)
    · obtain ⟨hash, hget⟩ := mem_pendingValues.mp hx
      exact List.mem_append_left _
        (List.mem_map.mpr ⟨(hash, x), (Table.mem_toList _ _ _).mpr hget, rfl⟩)
    · obtain ⟨hash, hget⟩ := hx.stored
      exact List.mem_append_right _
        (List.mem_map.mpr ⟨(hash, x), (Table.mem_toList _ _ _).mpr hget, rfl⟩)
  exact h.free.header b (hmem hb) c (hmem hc) hhash

/-- A served block is taken in if it is the first candidate of its height, and the candidates of
lower heights leave room for it. -/
theorem CoversRange.mem_taken (hlow : fromHeight ≤ c.header.height)
    (hhigh : c.header.height ≤ toHeight) :
    c ∈ takenFromRange fromHeight toHeight none
        (server.collectBlockRange P order rounds storage fromHeight toHeight) ↔
      (server.rangeCandidates order rounds storage fromHeight toHeight).find?
        (·.header.height = c.header.height) = some c ∧
      (hashesBelow P storage server order tip fromHeight c.header.height).encard <
        blockRangeResponseMaxBlocks := by
  have hrange : fromHeight ≤ toHeight := hlow.trans hhigh
  have hcand : ∀ {b : Block}, b ∈ server.rangeCandidates order rounds storage fromHeight toHeight ↔
      _ := h.mem_candidates hrounds hrange
  set candidates := server.rangeCandidates order rounds storage fromHeight toHeight with hdef
  have hkey : ∀ p : ℕ → Bool, ∀ a ∈ candidates, ∀ b ∈ candidates, a.hash P = b.hash P →
      p a.header.height = p b.header.height := by
    intro p a ha b hb hhash
    rw [h.header_eq (hcand.mp ha).1 (hcand.mp hb).1 hhash]
  have hsorted := List.pairwise_insertionSort (fun a b : Block => a.header.height ≤ b.header.height)
    (distinctBy (·.hash P) [] candidates)
  have hin : ∀ b ∈ ((distinctBy (·.hash P) [] candidates).insertionSort
      fun a b : Block => a.header.height ≤ b.header.height).take blockRangeResponseMaxBlocks,
      fromHeight ≤ b.header.height ∧ b.header.height ≤ toHeight := by
    intro b hb
    have hb := (List.mem_insertionSort _).mp (List.mem_of_mem_take hb)
    exact (hcand.mp (distinctBy_sublist.subset hb)).2
  have hcount : ((distinctBy (·.hash P) [] candidates).countP
      (·.header.height < c.header.height) : ℕ∞) =
      (hashesBelow P storage server order tip fromHeight c.header.height).encard := by
    rw [countP_distinctBy (hkey (· < c.header.height))]
    congr 1
    ext hash
    constructor
    · rintro ⟨b, hb, hlt, rfl⟩
      obtain ⟨hsource, hfrom, -⟩ := hcand.mp hb
      exact ⟨b, hsource, hfrom, of_decide_eq_true hlt, rfl⟩
    · rintro ⟨b, hsource, hfrom, hlt, rfl⟩
      exact ⟨b, hcand.mpr ⟨hsource, hfrom, by omega⟩, decide_eq_true hlt, rfl⟩
  rw [collectBlockRange, if_neg (by omega), ← hdef]
  simp only
  rw [mem_takenFromRange (hsorted.sublist (List.take_sublist _ _)) hin (fun h hh => by cases hh),
    find?_take_iff hsorted, find?_insertionSort,
    find?_distinctBy (hkey (· = c.header.height)) (fun _ _ hs => absurd hs List.not_mem_nil),
    (List.perm_insertionSort _ _).countP_eq, ← hcount, Nat.cast_lt]
  simp

/-- The committed block of a height is the first candidate if the pending blocks do not have
another one before it. -/
theorem CoversRange.find?_candidates (hc : c ∈ chainWithin storage tip fromHeight toHeight) :
    (server.rangeCandidates order rounds storage fromHeight toHeight).find?
        (·.header.height = c.header.height) = some c ↔
      ∀ b, (server.core.state.pendingValues order).find?
        (·.header.height = c.header.height) = some b → b = c := by
  obtain ⟨hchain, hlow, hhigh⟩ := hc
  obtain ⟨lc, hlc, rfl⟩ := h.recorded
  have hstored : (loadBlockRangeFromStorage storage rounds lc.lastCommittedHash fromHeight toHeight
      blockRangeResponseMaxBlocks).find? (·.header.height = c.header.height) = some c := by
    have hload := fun {b} => load_whole_of_wide h.linked (hlow.trans hhigh) hrounds h.span (b := b)
    cases hfind : (loadBlockRangeFromStorage storage rounds lc.lastCommittedHash fromHeight
        toHeight blockRangeResponseMaxBlocks).find? (·.header.height = c.header.height) with
    | none =>
      have hnone := List.find?_eq_none.mp hfind c (hload.mpr ⟨hchain, hlow, hhigh⟩)
      exact absurd (decide_eq_true rfl) hnone
    | some b =>
      have hheight := List.find?_some hfind
      rw [decide_eq_true_iff] at hheight
      obtain ⟨hb, -⟩ := hload.mp (List.mem_of_find?_eq_some hfind)
      rw [h.linked.eq_of_height_eq hb hchain hheight]
  have hpending : ((server.core.state.pendingValues order).filter fun b =>
      fromHeight ≤ b.header.height && b.header.height ≤ toHeight).find?
        (·.header.height = c.header.height) =
      (server.core.state.pendingValues order).find? (·.header.height = c.header.height) := by
    rw [List.find?_filter]
    congr 1
    funext b
    by_cases hheight : b.header.height = c.header.height
    · simp [hheight, hlow, hhigh]
    · simp [hheight]
  rw [rangeCandidates, Option.mem_def.mp hlc, Option.elim_some, List.find?_append, hpending,
    hstored]
  cases (server.core.state.pendingValues order).find? (·.header.height = c.header.height) with
  | none => simp
  | some b => simp

end

/-- When the requester takes in one committed block. -/
theorem CoversRange.takesIn_iff (h : CoversRange P storage server tip fromHeight toHeight)
    (hrounds : storage.heightOf tip < rounds)
    (hsent : requester.blockSyncRangeInflight.containsKey (fromHeight, toHeight) = true)
    (hc : c ∈ chainWithin storage tip fromHeight toHeight) :
    requester.TakesIn P (.receiveBlockRange fromHeight toHeight
        (server.collectBlockRange P order rounds storage fromHeight toHeight) peer) c ↔
      (∀ b, (server.core.state.pendingValues order).find?
          (·.header.height = c.header.height) = some b → b = c) ∧
      (hashesBelow P storage server order tip fromHeight c.header.height).encard <
        blockRangeResponseMaxBlocks := by
  rw [Boule.takesIn_iff, inserts, hsent, ← h.find?_candidates hrounds hc,
    ← h.mem_taken hrounds hc.2.1 hc.2.2]
  rfl

theorem encard_hashesBelow_le {h h' : ℕ} (hle : h ≤ h') :
    (hashesBelow P storage server order tip fromHeight h).encard ≤
      (hashesBelow P storage server order tip fromHeight h').encard := by
  apply Set.encard_le_encard
  rintro hash ⟨b, hsource, hlow, hhigh, hhash⟩
  exact ⟨b, hsource, hlow, hhigh.trans_le hle, hhash⟩

/-- The requester takes in all committed blocks of the range exactly when at each height no other
pending block comes first, and the blocks below the top of the range leave room for it. -/
theorem range_delivered_iff (h : CoversRange P storage server tip fromHeight toHeight)
    (hrounds : storage.heightOf tip < rounds)
    (hsent : requester.blockSyncRangeInflight.containsKey (fromHeight, toHeight) = true) :
    (∀ c ∈ chainWithin storage tip fromHeight toHeight,
      requester.TakesIn P (.receiveBlockRange fromHeight toHeight
        (server.collectBlockRange P order rounds storage fromHeight toHeight) peer) c) ↔
      (∀ c ∈ chainWithin storage tip fromHeight toHeight, ∀ b,
        (server.core.state.pendingValues order).find?
          (·.header.height = c.header.height) = some b → b = c) ∧
      (hashesBelow P storage server order tip fromHeight toHeight).encard <
        blockRangeResponseMaxBlocks := by
  constructor
  · intro hall
    refine ⟨fun c hc => ((h.takesIn_iff hrounds hsent hc).mp (hall c hc)).1, ?_⟩
    rcases Nat.lt_or_ge toHeight fromHeight with hnone | hrange
    · have hempty : hashesBelow P storage server order tip fromHeight toHeight = ∅ := by
        apply Set.eq_empty_of_forall_notMem
        rintro hash ⟨b, -, hlow, hhigh, -⟩
        omega
      rw [hempty, Set.encard_empty]
      decide
    · obtain ⟨c, hchain, hheight⟩ := h.covered toHeight hrange le_rfl
      have hc : c ∈ chainWithin storage tip fromHeight toHeight :=
        ⟨hchain, hheight ▸ hrange, hheight.le⟩
      have hroom := ((h.takesIn_iff hrounds hsent hc).mp (hall c hc)).2
      rwa [hheight] at hroom
  · rintro ⟨hfirst, hroom⟩ c hc
    have hless := (encard_hashesBelow_le hc.2.2).trans_lt hroom
    exact (h.takesIn_iff hrounds hsent hc).mpr ⟨hfirst c hc, hless⟩

/-- Committed blocks alone leave room. -/
theorem CoversRange.room (h : CoversRange P storage server tip fromHeight toHeight)
    (hchain : ∀ b ∈ server.core.state.pendingValues order, fromHeight ≤ b.header.height →
      b.header.height ≤ toHeight → InChain storage tip b) :
    (hashesBelow P storage server order tip fromHeight toHeight).encard <
      blockRangeResponseMaxBlocks := by
  have hsub : hashesBelow P storage server order tip fromHeight toHeight ⊆
      (fun b => b.hash P) '' chainWithin storage tip fromHeight (toHeight - 1) := by
    rintro hash ⟨b, hsource, hlow, hhigh, rfl⟩
    have hb : InChain storage tip b := hsource.elim (fun hp => hchain b hp hlow hhigh.le) id
    exact ⟨b, ⟨hb, hlow, by omega⟩, rfl⟩
  have hspan := h.span
  have hcount : ((toHeight - 1 + 1 - fromHeight : ℕ) : ℕ∞) < (blockRangeResponseMaxBlocks : ℕ) := by
    rw [Nat.cast_lt]
    unfold blockRangeResponseMaxBlocks at hspan ⊢
    omega
  calc (hashesBelow P storage server order tip fromHeight toHeight).encard
      ≤ ((fun b => b.hash P) '' chainWithin storage tip fromHeight (toHeight - 1)).encard :=
        Set.encard_le_encard hsub
    _ ≤ (chainWithin storage tip fromHeight (toHeight - 1)).encard := Set.encard_image_le _ _
    _ ≤ (toHeight - 1 + 1 - fromHeight : ℕ) := encard_chainWithin_le h.linked
    _ < blockRangeResponseMaxBlocks := hcount

namespace Sample

/-- A node that has committed two blocks, with these blocks among its pending ones. -/
def serving (pending : List Block) : Option Archive :=
  (archiving [.commit lower, .commit upper]).map fun s =>
    { s with node := s.node.insertPendingBlocks timed pending }

/-- A node that a proposal of height 3 has made ask for the two blocks below it. -/
def requesting : Option ConsensusNode :=
  (recover timed config .empty).map (·.maybeEmitBlockRangeRequest 2 3)

/-- A block of a later view on the same parent as `lower`. -/
def rival : Block := blockOn root 13 0 []

def asYielded : IterOrder := ⟨id, fun l => .refl l⟩

theorem coversRange_of_upper {storage : Storage} {n : ConsensusNode}
    (hlast : ∃ lc ∈ storage.lastCommitted, lc.lastCommittedHash = upper.hash timed)
    (hlinked : ∀ e ∈ storage.blocks.toList, ∀ p ∈ parentBlock storage e.2,
      p.hash timed = e.2.header.parentHash ∧ e.2.header.height = p.header.height + 1)
    (hupper : storage.blocks.get? (upper.hash timed) = some upper)
    (hlower : parentBlock storage upper = some lower)
    (hfree : CollisionFree timed
      (n.core.state.pendingBlocks.toList.map Prod.snd ++ storage.blocks.toList.map Prod.snd)) :
    CoversRange timed storage n (upper.hash timed) 1 2 ∧
      lower ∈ chainWithin storage (upper.hash timed) 1 2 := by
  have htip : upper.hash timed ≠ 0 := by decide +kernel
  have hchain : InChain storage (upper.hash timed) upper := ⟨htip, upper, hupper, .refl⟩
  have hbelow : InChain storage (upper.hash timed) lower := ⟨htip, upper, hupper, .single hlower⟩
  refine ⟨⟨hlast, chainLinked_of_forall hlinked, fun h hlow hhigh => ?_, by decide, hfree⟩,
    hbelow, by decide +kernel, by decide +kernel⟩
  obtain rfl | rfl : h = 1 ∨ h = 2 := by omega
  · exact ⟨lower, hbelow, by decide +kernel⟩
  · exact ⟨upper, hchain, by decide +kernel⟩

/-- Without other blocks of these heights the two blocks are delivered. -/
theorem serving_delivers : ∃ s ∈ serving [upper], ∃ n ∈ requesting,
    ∀ c ∈ chainWithin s.storage (upper.hash timed) 1 2, n.TakesIn timed
      (.receiveBlockRange 1 2 (s.node.collectBlockRange timed asYielded 3 s.storage 1 2) 2) c := by
  obtain ⟨s, hs, hlast, hlinked, hupper, hlower, hfree, hbound, hpending⟩ :
      ∃ s ∈ serving [upper],
      (∃ lc ∈ s.storage.lastCommitted, lc.lastCommittedHash = upper.hash timed) ∧
      (∀ e ∈ s.storage.blocks.toList, ∀ p ∈ parentBlock s.storage e.2,
        p.hash timed = e.2.header.parentHash ∧ e.2.header.height = p.header.height + 1) ∧
      s.storage.blocks.get? (upper.hash timed) = some upper ∧
      parentBlock s.storage upper = some lower ∧
      CollisionFree timed (s.node.core.state.pendingBlocks.toList.map Prod.snd ++
        s.storage.blocks.toList.map Prod.snd) ∧
      s.storage.heightOf (upper.hash timed) < 3 ∧
      ∀ b ∈ s.node.core.state.pendingValues asYielded, 1 ≤ b.header.height → b = upper := by
    decide +kernel
  obtain ⟨n, hn, hsent⟩ : ∃ n ∈ requesting,
      n.blockSyncRangeInflight.containsKey (1, 2) = true := by decide +kernel
  obtain ⟨hcovers, -⟩ := coversRange_of_upper hlast hlinked hupper hlower hfree
  have htip : upper.hash timed ≠ 0 := by decide +kernel
  have hchain : InChain s.storage (upper.hash timed) upper := ⟨htip, upper, hupper, .refl⟩
  refine ⟨s, hs, n, hn, (range_delivered_iff hcovers hbound hsent).mpr ⟨?_, ?_⟩⟩
  · intro c hc b hfind
    have hheight := List.find?_some hfind
    rw [decide_eq_true_iff] at hheight
    obtain rfl := hpending b (List.mem_of_find?_eq_some hfind) (hheight ▸ hc.2.1)
    exact hcovers.linked.eq_of_height_eq hchain hc.1 hheight
  · exact hcovers.room fun b hb hlow _ => hpending b hb hlow ▸ hchain

/-- A pending block beside a committed one is served, and the committed one is passed over. -/
theorem rival_shadows : ∃ s ∈ serving [rival], ∃ n ∈ requesting,
    CoversRange timed s.storage s.node (upper.hash timed) 1 2 ∧
      n.blockSyncRangeInflight.containsKey (1, 2) = true ∧
      ¬ ∀ c ∈ chainWithin s.storage (upper.hash timed) 1 2, n.TakesIn timed
        (.receiveBlockRange 1 2
          (s.node.collectBlockRange timed asYielded 3 s.storage 1 2) 2) c := by
  obtain ⟨s, hs, hlast, hlinked, hupper, hlower, hfree, n, hn, hsent, hmissed⟩ :
      ∃ s ∈ serving [rival],
      (∃ lc ∈ s.storage.lastCommitted, lc.lastCommittedHash = upper.hash timed) ∧
      (∀ e ∈ s.storage.blocks.toList, ∀ p ∈ parentBlock s.storage e.2,
        p.hash timed = e.2.header.parentHash ∧ e.2.header.height = p.header.height + 1) ∧
      s.storage.blocks.get? (upper.hash timed) = some upper ∧
      parentBlock s.storage upper = some lower ∧
      CollisionFree timed (s.node.core.state.pendingBlocks.toList.map Prod.snd ++
        s.storage.blocks.toList.map Prod.snd) ∧
      ∃ n ∈ requesting, n.blockSyncRangeInflight.containsKey (1, 2) = true ∧
        lower ∉ n.inserts timed (.receiveBlockRange 1 2
          (s.node.collectBlockRange timed asYielded 3 s.storage 1 2) 2) := by decide +kernel
  obtain ⟨hcovers, hin⟩ := coversRange_of_upper hlast hlinked hupper hlower hfree
  exact ⟨s, hs, n, hn, hcovers, hsent, fun hall => hmissed (takesIn_iff.mp (hall lower hin))⟩

end Sample

end Boule
