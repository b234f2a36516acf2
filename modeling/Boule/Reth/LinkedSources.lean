import Boule.Reth.ProofSources

/-! Proof sources on a chain whose heights go up by one: what the condition for valid sources comes
to when each committed block is on the parent's chain. -/
namespace Boule

namespace ProofSources
open Lineage

variable {P : Primitives} {U : HeaderPool P} {parse : Bytes → Option JsonValue}
  {pending : PendingBlocks U} {parent b : Block} {committedHeight : ℕ} {parentEvmHash : String}
  {calls : List CommitCall} {recent : List (BlockHash × String)}

/-- The parent's chain goes down to genesis by one height a block, and the commits were of blocks
on it, in order. -/
structure Linked (U : HeaderPool P) (parent : Block) (committedHeight : ℕ)
    (calls : List CommitCall) : Prop where
  grounded : U.Grounded parent.header
  onChain : ∀ call ∈ calls, U.Extends parent.header call.block.header
  ordered : calls.Pairwise fun c d => c.block.header.height < d.block.header.height
  committed : ∀ call ∈ calls, call.block.header.height ≤ committedHeight

/-- The hash is that of a block that could back a weight. -/
def IsSource (pending : PendingBlocks U) (parse : Bytes → Option JsonValue) (parent : Block)
    (committedHeight : ℕ) (recent : List (BlockHash × String)) (h : BlockHash) : Prop :=
  h = parent.hash P ∨
    (∃ b ∈ openAncestors pending.blocks committedHeight parent,
      (evmBlockHashOf parse b).isSome = true ∧ b.hash P = h) ∨
    h ∈ recent.map Prod.fst

theorem mem_allSources {h : BlockHash} :
    h ∈ (allSources P parse parent pending.blocks committedHeight parentEvmHash recent).map
      Prod.fst ↔ IsSource pending parse parent committedHeight recent h := by
  rw [allSources, Capped.mem_foldl_addNew, List.map_cons, List.mem_cons, List.map_reverse,
    List.mem_reverse, or_assoc, IsSource]
  refine or_congr_right (or_congr_left ?_)
  constructor
  · intro hin
    obtain ⟨e, he, rfl⟩ := List.mem_map.mp hin
    obtain ⟨b, hb, hentry⟩ := List.mem_filterMap.mp he
    obtain ⟨hevm, hhash⟩ := entryOf_eq_some.mp hentry
    exact ⟨b, hb, by rw [hevm, Option.isSome_some], hhash⟩
  · rintro ⟨b, hb, hsome, rfl⟩
    obtain ⟨evmHash, hevm⟩ := Option.isSome_iff_exists.mp hsome
    exact List.mem_map.mpr ⟨(b.hash P, evmHash),
      List.mem_filterMap.mpr ⟨b, hb, entryOf_eq_some.mpr ⟨hevm, rfl⟩⟩, rfl⟩

theorem fst_of_pushed {call : CommitCall} {e : BlockHash × String}
    (h : pushed P parse call = some e) : e.1 = call.block.hash P := by
  simp only [pushed, Option.bind_eq_bind, Option.bind_eq_some_iff] at h
  obtain ⟨cmd, -, payload, -, root, -, _, -, h⟩ := h
  cases hanswer : call.answer with
  | valid =>
    rw [hanswer] at h
    obtain ⟨evmHash, -, rfl⟩ := Option.map_eq_some_iff.mp h
    rfl
  | syncing =>
    rw [hanswer] at h
    cases h
  | failed =>
    rw [hanswer] at h
    cases h

/-- The hashes on the parent's chain tell the heights. -/
theorem exists_height_of_hash (hparent : parent.header ∈ U.headers) :
    ∃ height : BlockHash → ℕ, ∀ x, U.Extends parent.header x →
      height (P.headerHash x) = x.height := by
  classical
  refine ⟨fun h => if hx : ∃ x, U.Extends parent.header x ∧ P.headerHash x = h
    then hx.choose.height else 0, fun x hx => ?_⟩
  have hex : ∃ y, U.Extends parent.header y ∧ P.headerHash y = P.headerHash x := ⟨x, hx, rfl⟩
  obtain ⟨hext, hhash⟩ := hex.choose_spec
  have heq : hex.choose = x := U.hash_injective _ (header_mem_of_extends hext hparent) _
    (header_mem_of_extends hx hparent) hhash
  show (if hx : _ then _ else _) = _
  rw [dif_pos hex, heq]

theorem mem_recentCommitted {e : BlockHash × String} (h : e ∈ recentCommitted P parse calls) :
    ∃ call ∈ calls, e.1 = call.block.hash P := by
  rw [recentCommitted_eq] at h
  obtain ⟨call, hcall, hpushed⟩ := List.mem_filterMap.mp (List.mem_of_mem_drop h)
  exact ⟨call, hcall, fst_of_pushed hpushed⟩

theorem ancestor_of_mem_openAncestors
    (h : b ∈ openAncestors pending.blocks committedHeight parent) :
    ∃ x, Ancestor (parentIn pending.blocks) parent x ∧ parentIn pending.blocks x = some b ∧
      committedHeight < x.header.height := by
  obtain ⟨x, hx, hb⟩ := List.mem_filterMap.mp h
  have hopen := List.all_eq_true.mp List.all_takeWhile x hx
  exact ⟨x, ancestor_of_mem_lineage ((List.takeWhile_sublist _).subset hx), hb,
    of_decide_eq_true hopen⟩

section
variable {height : BlockHash → ℕ}

/-- The ring rises. -/
theorem pairwise_recentCommitted (hlinked : Linked U parent committedHeight calls)
    (hheight : ∀ x, U.Extends parent.header x → height (P.headerHash x) = x.height) :
    (recentCommitted P parse calls).Pairwise fun e f => height e.1 < height f.1 := by
  rw [recentCommitted_eq]
  refine List.Pairwise.sublist (List.drop_sublist _ _) ?_
  refine List.pairwise_filterMap.mpr (hlinked.ordered.imp_of_mem ?_)
  intro c d hc hd hlt e he f hf
  rw [fst_of_pushed he, fst_of_pushed hf, Block.hash, Block.hash, hheight _ (hlinked.onChain c hc),
    hheight _ (hlinked.onChain d hd)]
  exact hlt

/-- The parent and its open ancestors fall. -/
theorem pairwise_pendingEntries (hg : U.Grounded parent.header)
    (hheight : ∀ x, U.Extends parent.header x → height (P.headerHash x) = x.height) :
    ((parent.hash P, parentEvmHash) :: (openAncestors pending.blocks committedHeight
      parent).filterMap (entryOf P parse)).Pairwise fun e f => height f.1 < height e.1 := by
  have hwalk : (parent :: openAncestors pending.blocks committedHeight parent).Pairwise
      fun x y => y.header.height < x.header.height :=
    (pairwise_lineage (ranked_of_grounded hg)).sublist isPrefix_cons_reached.sublist
  have hblock : ∀ x ∈ parent :: openAncestors pending.blocks committedHeight parent,
      height (x.hash P) = x.header.height := by
    intro x hx
    have hanc := ancestor_of_mem_lineage (isPrefix_cons_reached.subset hx)
    exact hheight _ (extends_of_ancestor hg.mem hanc).1
  obtain ⟨hparent, hrest⟩ := List.pairwise_cons.mp hwalk
  rw [List.pairwise_cons]
  constructor
  · intro e he
    obtain ⟨x, hx, hentry⟩ := List.mem_filterMap.mp he
    rw [← (entryOf_eq_some.mp hentry).2, hblock x (List.mem_cons_of_mem _ hx),
      hblock parent (List.mem_cons_self ..)]
    exact hparent x hx
  · refine List.pairwise_filterMap.mpr (hrest.imp_of_mem ?_)
    intro x y hx hy hlt e he f hf
    rw [← (entryOf_eq_some.mp he).2, ← (entryOf_eq_some.mp hf).2,
      hblock x (List.mem_cons_of_mem _ hx), hblock y (List.mem_cons_of_mem _ hy)]
    exact hlt

/-- A committed block is not above the parent or an open ancestor. -/
theorem height_le_of_committed (hlinked : Linked U parent committedHeight calls)
    {call : CommitCall} (hcall : call ∈ calls)
    (hb : b ∈ parent :: openAncestors pending.blocks committedHeight parent) :
    call.block.header.height ≤ b.header.height := by
  rcases List.mem_cons.mp hb with rfl | hb
  · exact hlinked.grounded.height_le (hlinked.onChain call hcall)
  · obtain ⟨x, hx, hparent, hopen⟩ := ancestor_of_mem_openAncestors hb
    have hrank : x.header.height = b.header.height + 1 :=
      ranked_of_grounded hlinked.grounded x hx b hparent
    have hlow := hlinked.committed call hcall
    omega

/-- On a linked chain the sources fall. -/
theorem pairwise_allSources (hlinked : Linked U parent committedHeight calls)
    (hheight : ∀ x, U.Extends parent.header x → height (P.headerHash x) = x.height) :
    (allSources P parse parent pending.blocks committedHeight parentEvmHash
      (recentCommitted P parse calls)).Pairwise fun e f => height f.1 < height e.1 := by
  have hg := hlinked.grounded
  have hring : (recentCommitted P parse calls).Pairwise fun e f => height e.1 < height f.1 :=
    pairwise_recentCommitted hlinked hheight
  obtain ⟨rest, heq, hsub, hnew⟩ := Capped.foldl_addNew_eq Prod.fst
    ((parent.hash P, parentEvmHash) :: (openAncestors pending.blocks committedHeight
      parent).filterMap (entryOf P parse)) (recentCommitted P parse calls).reverse
  rw [allSources, heq, List.pairwise_append]
  refine ⟨pairwise_pendingEntries hg hheight, (List.pairwise_reverse.mpr hring).sublist hsub, ?_⟩
  intro e he f hf
  obtain ⟨call, hcall, hcallhash⟩ := mem_recentCommitted (List.mem_reverse.mp (hsub.subset hf))
  obtain ⟨b, hb, hbhash⟩ : ∃ b ∈ parent :: openAncestors pending.blocks committedHeight parent,
      b.hash P = e.1 := by
    rcases List.mem_cons.mp he with rfl | he
    · exact ⟨parent, List.mem_cons_self .., rfl⟩
    · obtain ⟨b, hb, hentry⟩ := List.mem_filterMap.mp he
      exact ⟨b, List.mem_cons_of_mem _ hb, (entryOf_eq_some.mp hentry).2⟩
  have hanc := ancestor_of_mem_lineage (isPrefix_cons_reached.subset hb)
  have hext := (extends_of_ancestor hg.mem hanc).1
  have hle := height_le_of_committed hlinked hcall hb
  have hne : call.block.header.height ≠ b.header.height := by
    intro hsame
    have hheader := hg.eq_of_height (hlinked.onChain call hcall) hext hsame
    refine hnew f hf (List.mem_map.mpr ⟨e, he, ?_⟩)
    rw [hcallhash, ← hbhash, Block.hash, Block.hash, hheader]
  rw [hcallhash, ← hbhash, Block.hash, Block.hash, hheight _ hext,
    hheight _ (hlinked.onChain call hcall)]
  omega

end

/-- On a linked chain each source is on it. -/
theorem Linked.extends_of_mem (hlinked : Linked U parent committedHeight calls)
    {e : BlockHash × String} (he : e ∈ allSources P parse parent pending.blocks committedHeight
      parentEvmHash (recentCommitted P parse calls)) :
    ∃ x, U.Extends parent.header x ∧ P.headerHash x = e.1 := by
  rcases mem_allSources.mp (List.mem_map_of_mem he) with hhash | ⟨b, hb, -, hhash⟩ | hring
  · exact ⟨parent.header, .refl, hhash.symm⟩
  · have hin := isPrefix_cons_reached.subset (List.mem_cons_of_mem parent hb)
    exact ⟨b.header, (extends_of_ancestor hlinked.grounded.mem
      (ancestor_of_mem_lineage hin)).1, hhash⟩
  · obtain ⟨f, hf, hfst⟩ := List.mem_map.mp hring
    obtain ⟨call, hcall, hhash⟩ := mem_recentCommitted hf
    exact ⟨call.block.header, hlinked.onChain call hcall, hhash.symm.trans hfst⟩

theorem inAnchorWindow_iff {top height : ℕ} (h : height ≤ top) :
    inAnchorWindow (top + 1) height = true ↔ top < height + maxWeightProofAnchorLag := by
  simp only [inAnchorWindow, Bool.and_eq_true, decide_eq_true_iff]
  omega

/-- Among falling sources on one chain none of the newest is stale exactly where there is no stale
one at all or each block of the window is a source. -/
theorem staleComeLate_iff_of_falling (hg : U.Grounded parent.header) {height : BlockHash → ℕ}
    (hheight : ∀ x, U.Extends parent.header x → height (P.headerHash x) = x.height)
    {sources : List (BlockHash × String)}
    (hfall : sources.Pairwise fun e f => height f.1 < height e.1)
    (hchain : ∀ e ∈ sources, ∃ x, U.Extends parent.header x ∧ P.headerHash x = e.1) :
    StaleComeLate U parent sources ↔
      (∀ x, U.Extends parent.header x → P.headerHash x ∈ sources.map Prod.fst →
        parent.header.height < x.height + maxWeightProofAnchorLag) ∨
      ∀ x, U.Extends parent.header x →
        parent.header.height < x.height + maxWeightProofAnchorLag →
        P.headerHash x ∈ sources.map Prod.fst := by
  have hle : ∀ e ∈ sources, height e.1 ≤ parent.header.height := by
    intro e he
    obtain ⟨x, hx, hhash⟩ := hchain e he
    rw [← hhash, hheight x hx]
    exact hg.height_le hx
  have hstale : ∀ e ∈ sources, ¬ IsAnchor U parent e.1 ↔
      height e.1 + maxWeightProofAnchorLag ≤ parent.header.height := by
    intro e he
    obtain ⟨x, hx, hhash⟩ := hchain e he
    rw [← hhash, isAnchor_iff_of_extends hg.mem hx, inAnchorWindow_iff (hg.height_le hx),
      hheight x hx, Nat.not_lt]
  have hlate : StaleComeLate U parent sources ↔ ∀ i e, sources[i]? = some e →
      height e.1 + maxWeightProofAnchorLag ≤ parent.header.height →
        maxWeightProofAnchorLag ≤ i :=
    forall₂_congr fun i e => forall_congr' fun he =>
      imp_congr_left (hstale e (List.mem_of_getElem? he))
  rw [hlate, low_come_late_iff hfall hle]
  apply or_congr
  · constructor
    · intro hall x hx hin
      obtain ⟨e, he, hhash⟩ := List.mem_map.mp hin
      have hhigh := hall e he
      rwa [hhash, hheight x hx] at hhigh
    · intro hall e he
      obtain ⟨x, hx, hhash⟩ := hchain e he
      rw [← hhash, hheight x hx]
      exact hall x hx (List.mem_map.mpr ⟨e, he, hhash.symm⟩)
  · constructor
    · intro hfull x hx hhigh
      obtain ⟨e, he, hrank⟩ := hfull x.height (hg.height_le hx) hhigh
      obtain ⟨y, hy, hhash⟩ := hchain e he
      rw [← hhash, hheight y hy] at hrank
      rw [← hg.eq_of_height hy hx hrank, hhash]
      exact List.mem_map_of_mem he
    · intro hfull r hr hhigh
      obtain ⟨x, hx, rfl⟩ := hg.exists_height hr
      obtain ⟨e, he, hhash⟩ := List.mem_map.mp (hfull x hx hhigh)
      exact ⟨e, he, by rw [hhash, hheight x hx]⟩

/-- For every parent, map of pending blocks, committed height and run of commits the sources are
valid where the heights fall and stale sources come late. On a linked chain that means: none is
below the window, or each block of the window is one. -/
theorem anchors_offered_iff (pending : PendingBlocks U) (parse : Bytes → Option JsonValue)
    (parent : Block) (parentEvmHash : String) (committedHeight : ℕ) (calls : List CommitCall)
    (hacyclic : Acyclic (parentIn pending.blocks)) (hparent : parent.header ∈ U.headers) :
    (SourcesValid U parse pending parent parentEvmHash committedHeight calls ↔
      HeightsFall pending.blocks committedHeight parent ∧
        StaleComeLate U parent (allSources P parse parent pending.blocks committedHeight
          parentEvmHash (recentCommitted P parse calls))) ∧
    (Linked U parent committedHeight calls →
      (SourcesValid U parse pending parent parentEvmHash committedHeight calls ↔
        (∀ x, U.Extends parent.header x →
          IsSource pending parse parent committedHeight (recentCommitted P parse calls)
            (P.headerHash x) →
          parent.header.height < x.height + maxWeightProofAnchorLag) ∨
        ∀ x, U.Extends parent.header x →
          parent.header.height < x.height + maxWeightProofAnchorLag →
          IsSource pending parse parent committedHeight (recentCommitted P parse calls)
            (P.headerHash x))) := by
  rw [sourcesValid_iff_walks hacyclic, isOpenChain_iff hacyclic,
    validSources_take_iff hparent hacyclic]
  refine ⟨Iff.rfl, fun hlinked => ?_⟩
  obtain ⟨height, hheight⟩ := exists_height_of_hash hparent
  rw [and_iff_right (heightsFall_of_grounded hlinked.grounded),
    staleComeLate_iff_of_falling hlinked.grounded hheight (pairwise_allSources hlinked hheight)
      fun e he => hlinked.extends_of_mem he]
  simp only [mem_allSources]

end ProofSources

namespace Sample
open ProofSources

/-- Where each commit is valid the eight newest blocks are offered. -/
theorem sources_valid_when_executed : SourcesValid executedPool executedPayload executedPending
    (executedChain 12) "0xe0" 9 (nineCommits fun _ => .valid) := by
  refine (anchors_offered_iff executedPending executedPayload (executedChain 12) "0xe0" 9
    (nineCommits fun _ => .valid) acyclic_executedPending (mem_executedPool (by decide))).1.mpr
      ⟨heightsFall_of_grounded (grounded_executedChain (by decide)), ?_⟩
  have hhashes : (allSources primitives executedPayload (executedChain 12) executedPending.blocks 9
      "0xe0" (recentCommitted primitives executedPayload (nineCommits fun _ => .valid))).map
        Prod.fst = (List.range 12).map (13 - ·) := by decide +kernel
  intro i e hi hstale
  by_contra hlt
  have hlag : i < 8 := Nat.lt_of_not_le hlt
  have hfst : some e.1 = some (13 - i) := by
    have hget := congrArg (·[i]?) hhashes
    simpa [hi, show i < 12 by omega] using hget
  have hback : 13 - i = 12 - i + 1 := by omega
  rw [Option.some.inj hfst, hback] at hstale
  exact hstale (anchor_executedChain (by omega) (by omega))

end Sample

end Boule
