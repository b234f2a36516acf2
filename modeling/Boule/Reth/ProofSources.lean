import Boule.HotStuff.Headers
import Boule.Lib.Capped
import Boule.Lib.Climb
import Boule.Reth.PredeployLogs
import Boule.Reth.WeightProof

/-! The blocks whose receipts may back a weight in a proposal: a walk over the pending blocks from
the parent on, then a ring of what was committed last. Blocks are as consensus holds them, and a
walk that has not ended when its fuel is used up has no result. -/
namespace Boule.ProofSources
open Lineage

section
variable (P : Primitives) (parse : Bytes → Option JsonValue)

/-- `root_from_hex` -/
def rootFromHex (text : String) : Option Bytes := do
  let bytes ← Hex.decode (Hex.trimPrefixes text.toList)
  if bytes.length = 32 then some bytes else none

/-- `evm_block_hash_of`; `parse` is `serde_json::from_slice`. -/
def evmBlockHashOf (block : Block) : Option String := do
  let cmd ← block.commands.head?
  let payload ← parse cmd
  (payload.index "blockHash").asStr

def parentIn (pendingBlocks : Table BlockHash Block) (block : Block) : Option Block :=
  pendingBlocks.get? block.header.parentHash

/-- The loop of `uncommitted_chain`. -/
def uncommittedWalk (pendingBlocks : Table BlockHash Block) (committedHeight : ℕ) :
    ℕ → Block → List Block → Option (List Block)
  | 0, _, _ => none
  | fuel + 1, cursor, chain =>
    if committedHeight < cursor.header.height then
      match parentIn pendingBlocks cursor with
      | some p => uncommittedWalk pendingBlocks committedHeight fuel p (chain ++ [cursor])
      | none => some (chain ++ [cursor])
    else some chain

/-- Enough for a walk over distinct pending blocks. -/
def walkFuel (pendingBlocks : Table BlockHash Block) : ℕ := pendingBlocks.size + 2

def uncommittedChain (parent : Block) (pendingBlocks : Table BlockHash Block)
    (committedHeight : ℕ) : Option (List Block) :=
  (uncommittedWalk pendingBlocks committedHeight (walkFuel pendingBlocks) parent []).map
    List.reverse

/-- The first loop of `weight_proof_source_candidates`. -/
def pendingSources (pendingBlocks : Table BlockHash Block) (committedHeight : ℕ) :
    ℕ → Block → List (BlockHash × String) → Option (List (BlockHash × String))
  | 0, _, _ => none
  | fuel + 1, cursor, out =>
    if out.length < maxWeightProofAnchorLag then
      if cursor.header.height ≤ committedHeight then some out
      else
        match parentIn pendingBlocks cursor with
        | none => some out
        | some next =>
          match evmBlockHashOf parse next with
          | some evmHash =>
            pendingSources pendingBlocks committedHeight fuel next (out ++ [(next.hash P, evmHash)])
          | none => pendingSources pendingBlocks committedHeight fuel next out
    else some out

/-- A step of its second loop, over the ring; once the list is full nothing is added. -/
def addRecent (out : List (BlockHash × String)) (recent : BlockHash × String) :
    List (BlockHash × String) :=
  if maxWeightProofAnchorLag ≤ out.length then out
  else if out.any (·.1 = recent.1) then out
  else out ++ [recent]

def weightProofSourceCandidates (parent : Block) (pendingBlocks : Table BlockHash Block)
    (committedHeight : ℕ) (parentEvmHash : String) (recentCommitted : List (BlockHash × String)) :
    Option (List (BlockHash × String)) :=
  (pendingSources P parse pendingBlocks committedHeight (walkFuel pendingBlocks) parent
    [(parent.hash P, parentEvmHash)]).map fun out => recentCommitted.reverse.foldl addRecent out

/-- A call of `commit` and what the execution layer answers in it. -/
structure CommitCall where
  block : Block
  answer : ElAnswer

/-- What a call of `commit` pushes to the ring, if it gets there. -/
def pushed (call : CommitCall) : Option (BlockHash × String) := do
  let cmd ← call.block.commands.head?
  let payload ← parse cmd
  let root ← (payload.index "stateRoot").asStr
  let _ ← rootFromHex root
  match call.answer with
  | .valid => (payload.index "blockHash").asStr.map fun evmHash => (call.block.hash P, evmHash)
  | _ => none

def ringCapacity : ℕ := maxWeightProofAnchorLag + 2

/-- The ring after a call of `commit`. -/
def commit (ring : List (BlockHash × String)) (call : CommitCall) : List (BlockHash × String) :=
  match pushed P parse call with
  | some entry =>
    let ring := ring ++ [entry]
    ring.drop (ring.length - ringCapacity)
  | none => ring

/-- The ring after the calls, from an empty one on. -/
def recentCommitted (calls : List CommitCall) : List (BlockHash × String) :=
  calls.foldl (commit P parse) []

end

/-! ### The ring -/

section
variable {P : Primitives} {parse : Bytes → Option JsonValue}

/-- The ring holds the last of what was pushed. -/
theorem recentCommitted_eq (calls : List CommitCall) :
    recentCommitted P parse calls = (calls.filterMap (pushed P parse)).drop
      ((calls.filterMap (pushed P parse)).length - ringCapacity) := by
  induction calls using List.reverseRecOn with
  | nil => rfl
  | append_singleton calls call ih =>
    rw [recentCommitted, List.foldl_append, List.foldl_cons, List.foldl_nil, ← recentCommitted, ih,
      List.filterMap_append]
    generalize calls.filterMap (pushed P parse) = entries
    unfold commit
    cases hp : pushed P parse call with
    | none => rw [List.filterMap_cons_none hp, List.filterMap_nil, List.append_nil]
    | some entry =>
      rw [List.filterMap_cons_some hp, List.filterMap_nil]
      have hdrop : entries.drop (entries.length - ringCapacity) ++ [entry] =
          (entries ++ [entry]).drop (entries.length - ringCapacity) :=
        (List.drop_append_of_le_length (Nat.sub_le _ _)).symm
      simp only [hdrop, List.drop_drop, List.length_drop, List.length_append,
        List.length_singleton]
      congr 1
      omega

end

/-! ### Valid sources -/

/-- The verifier's window: at most eight below the carrier. -/
def inAnchorWindow (carrierHeight sourceHeight : ℕ) : Bool :=
  sourceHeight < carrierHeight && carrierHeight - sourceHeight ≤ maxWeightProofAnchorLag

section
variable {P : Primitives}

/-- Pending blocks, each under its own hash. -/
structure PendingBlocks (U : HeaderPool P) where
  blocks : Table BlockHash Block
  keyed : ∀ {h b}, blocks.get? h = some b → b.hash P = h
  known : ∀ {h b}, blocks.get? h = some b → b.header ∈ U.headers

namespace PendingBlocks
variable {U : HeaderPool P}

def empty : PendingBlocks U where
  blocks := ∅
  keyed := by
    intro h b hb
    rw [Table.get?_empty] at hb
    cases hb
  known := by
    intro h b hb
    rw [Table.get?_empty] at hb
    cases hb

/-- `insert_pending` -/
def insert (pending : PendingBlocks U) (block : Block) (hblock : block.header ∈ U.headers) :
    PendingBlocks U where
  blocks := AList.insert (block.hash P) block pending.blocks
  keyed := by
    intro h b hb
    rw [Table.get?_insert] at hb
    split_ifs at hb with hh
    · rw [← Option.some.inj hb, hh]
    · exact pending.keyed hb
  known := by
    intro h b hb
    rw [Table.get?_insert] at hb
    split_ifs at hb with hh
    · rwa [← Option.some.inj hb]
    · exact pending.known hb

end PendingBlocks

/-- The hash is that of the parent or of an ancestor of it, in the window of the block that is
built on the parent. -/
def IsAnchor (U : HeaderPool P) (parent : Block) (h : BlockHash) : Prop :=
  ∃ x, U.Extends parent.header x ∧ P.headerHash x = h ∧
    inAnchorWindow (parent.header.height + 1) x.height = true

structure ValidSources (U : HeaderPool P) (parent : Block) (parentEvmHash : String)
    (out : List (BlockHash × String)) : Prop where
  length_le : out.length ≤ maxWeightProofAnchorLag
  nodup : (out.map Prod.fst).Nodup
  head : out.head? = some (parent.hash P, parentEvmHash)
  anchors : ∀ e ∈ out, IsAnchor U parent e.1

/-- The ancestors above the committed height that are connected through pending blocks, lowest
first. -/
structure IsOpenChain (pendingBlocks : Table BlockHash Block) (committedHeight : ℕ)
    (parent : Block) (chain : List Block) : Prop where
  mem_iff : ∀ b, b ∈ chain ↔
    Ancestor (parentIn pendingBlocks) parent b ∧ committedHeight < b.header.height
  ascending : chain.Pairwise fun x y => x.header.height < y.header.height

/-- Both walks end, with what they are for. -/
structure SourcesValid (U : HeaderPool P) (parse : Bytes → Option JsonValue)
    (pending : PendingBlocks U) (parent : Block) (parentEvmHash : String) (committedHeight : ℕ)
    (calls : List CommitCall) : Prop where
  chain : ∃ chain, uncommittedChain parent pending.blocks committedHeight = some chain ∧
    IsOpenChain pending.blocks committedHeight parent chain
  candidates : ∃ out, weightProofSourceCandidates P parse parent pending.blocks committedHeight
      parentEvmHash (recentCommitted P parse calls) = some out ∧
    ValidSources U parent parentEvmHash out

/-! ### When they are valid -/

def isOpen (committedHeight : ℕ) (b : Block) : Bool := committedHeight < b.header.height

/-- The entry of a block that has a payload. -/
def entryOf (P : Primitives) (parse : Bytes → Option JsonValue) (b : Block) :
    Option (BlockHash × String) :=
  (evmBlockHashOf parse b).map fun evmHash => (b.hash P, evmHash)

theorem entryOf_eq_some {parse : Bytes → Option JsonValue} {b : Block} {e : BlockHash × String} :
    entryOf P parse b = some e ↔ evmBlockHashOf parse b = some e.2 ∧ b.hash P = e.1 := by
  rw [entryOf, Option.map_eq_some_iff]
  constructor
  · rintro ⟨evmHash, hevm, rfl⟩
    exact ⟨hevm, rfl⟩
  · rintro ⟨hevm, hhash⟩
    exact ⟨e.2, hevm, Prod.ext hhash rfl⟩

theorem entryOf_eq_none {parse : Bytes → Option JsonValue} {b : Block}
    (h : evmBlockHashOf parse b = none) : entryOf P parse b = none := by
  rw [entryOf, h, Option.map_none]

/-- The pending ancestors that a walk over blocks above the committed height comes to. -/
def openAncestors (pendingBlocks : Table BlockHash Block) (committedHeight : ℕ) (parent : Block) :
    List Block :=
  reached (parentIn pendingBlocks) (isOpen committedHeight) (walkFuel pendingBlocks)
    parent

/-- All that could back a weight: the parent, the open ancestors with a payload, and the blocks in
the ring that are not among them, the last one first. -/
def allSources (P : Primitives) (parse : Bytes → Option JsonValue) (parent : Block)
    (pendingBlocks : Table BlockHash Block) (committedHeight : ℕ) (parentEvmHash : String)
    (recentCommitted : List (BlockHash × String)) : List (BlockHash × String) :=
  recentCommitted.reverse.foldl (Capped.addNew Prod.fst) ((parent.hash P, parentEvmHash) ::
    (openAncestors pendingBlocks committedHeight parent).filterMap (entryOf P parse))

/-- Each pending parent above the committed height is lower than its child. -/
def HeightsFall (pendingBlocks : Table BlockHash Block) (committedHeight : ℕ) (parent : Block) :
    Prop :=
  FallsAbove (parentIn pendingBlocks) (·.header.height) committedHeight parent

/-- A source out of the window, or not on the parent's chain, has eight others before it. -/
def StaleComeLate (U : HeaderPool P) (parent : Block) (sources : List (BlockHash × String)) :
    Prop :=
  ∀ i e, sources[i]? = some e → ¬ IsAnchor U parent e.1 → maxWeightProofAnchorLag ≤ i

/-! ### The two walks -/

variable {parse : Bytes → Option JsonValue} {pendingBlocks : Table BlockHash Block}
  {committedHeight fuel : ℕ} {cursor parent : Block}

theorem length_lineage_lt_walkFuel (hacyclic : Acyclic (parentIn pendingBlocks)) (n : ℕ)
    (a : Block) : (lineage (parentIn pendingBlocks) n a).length < walkFuel pendingBlocks := by
  have hpool : ∀ x b, parentIn pendingBlocks x = some b →
      b ∈ pendingBlocks.toList.map Prod.snd := by
    intro x b hb
    exact List.mem_map.mpr ⟨(_, b), (pendingBlocks.mem_toList _ b).mpr hb, rfl⟩
  have hsize : (pendingBlocks.toList.map Prod.snd).length = pendingBlocks.size := by
    rw [List.length_map, Table.toList, List.length_map, Table.size]
  have hle := length_lineage_le (n := n) (a := a) hacyclic hpool
  rw [walkFuel]
  omega

theorem uncommittedWalk_eq {chain : List Block}
    (hfuel : (lineage (parentIn pendingBlocks) fuel cursor).length < fuel) :
    uncommittedWalk pendingBlocks committedHeight fuel cursor chain = some (chain ++
      climb (parentIn pendingBlocks) (isOpen committedHeight) fuel cursor) := by
  induction fuel generalizing cursor chain with
  | zero => omega
  | succ fuel ih =>
    unfold uncommittedWalk
    by_cases hheight : committedHeight < cursor.header.height
    · have hmore : isOpen committedHeight cursor = true := decide_eq_true hheight
      rw [if_pos hheight]
      cases hp : parentIn pendingBlocks cursor with
      | none => rw [climb_of_none hmore hp]
      | some p =>
        rw [lineage_succ_some hp, List.length_cons] at hfuel
        rw [climb_of_some hmore hp]
        have hnext : (lineage (parentIn pendingBlocks) fuel p).length < fuel := by omega
        have hrest := @ih p (chain ++ [cursor]) hnext
        simpa using hrest
    · have hmore : ¬ isOpen committedHeight cursor = true := by simpa [isOpen] using hheight
      rw [if_neg hheight, climb_of_not hmore, List.append_nil]

theorem uncommittedChain_eq (hacyclic : Acyclic (parentIn pendingBlocks)) :
    uncommittedChain parent pendingBlocks committedHeight =
      some (climb (parentIn pendingBlocks) (isOpen committedHeight)
        (walkFuel pendingBlocks) parent).reverse := by
  rw [uncommittedChain, uncommittedWalk_eq (length_lineage_lt_walkFuel hacyclic _ _),
    List.nil_append, Option.map_some]

theorem pendingSources_eq {out : List (BlockHash × String)}
    (hout : out.length ≤ maxWeightProofAnchorLag)
    (hfuel : (lineage (parentIn pendingBlocks) fuel cursor).length < fuel) :
    pendingSources P parse pendingBlocks committedHeight fuel cursor out =
      some ((out ++ (reached (parentIn pendingBlocks) (isOpen committedHeight) fuel
        cursor).filterMap (entryOf P parse)).take maxWeightProofAnchorLag) := by
  induction fuel generalizing cursor out with
  | zero => omega
  | succ fuel ih =>
    unfold pendingSources
    by_cases hlen : out.length < maxWeightProofAnchorLag
    · rw [if_pos hlen]
      by_cases hheight : cursor.header.height ≤ committedHeight
      · have hmore : ¬ isOpen committedHeight cursor = true := by simpa [isOpen] using hheight
        rw [if_pos hheight, reached_of_not hmore, List.filterMap_nil, List.append_nil,
          List.take_of_length_le hout]
      · have hmore : isOpen committedHeight cursor = true := by simpa [isOpen] using hheight
        rw [if_neg hheight]
        cases hp : parentIn pendingBlocks cursor with
        | none =>
          rw [reached_of_none hp, List.filterMap_nil, List.append_nil, List.take_of_length_le hout]
        | some next =>
          rw [lineage_succ_some hp, List.length_cons] at hfuel
          have hnext : (lineage (parentIn pendingBlocks) fuel next).length < fuel := by omega
          rw [reached_of_some hmore hp]
          cases hevm : evmBlockHashOf parse next with
          | none =>
            rw [List.filterMap_cons_none (entryOf_eq_none hevm)]
            simp only [hevm]
            exact ih hout hnext
          | some evmHash =>
            have hentry : entryOf P parse next = some (next.hash P, evmHash) :=
              entryOf_eq_some.mpr ⟨hevm, rfl⟩
            have hout' : (out ++ [(next.hash P, evmHash)]).length ≤ maxWeightProofAnchorLag := by
              rw [List.length_append, List.length_singleton]
              omega
            have hrest := ih hout' hnext
            rw [List.append_assoc, List.singleton_append] at hrest
            rw [List.filterMap_cons_some hentry]
            simp only [hevm]
            exact hrest
    · have hfull : out.length = maxWeightProofAnchorLag := by omega
      rw [if_neg hlen, ← hfull, List.take_left]

theorem weightProofSourceCandidates_eq {parentEvmHash : String}
    {recent : List (BlockHash × String)} (hacyclic : Acyclic (parentIn pendingBlocks)) :
    weightProofSourceCandidates P parse parent pendingBlocks committedHeight parentEvmHash recent =
      some ((allSources P parse parent pendingBlocks committedHeight parentEvmHash recent).take
        maxWeightProofAnchorLag) := by
  have hone : [(parent.hash P, parentEvmHash)].length ≤ maxWeightProofAnchorLag := by
    show 1 ≤ maxWeightProofAnchorLag
    decide
  have hwalk : pendingSources P parse pendingBlocks committedHeight (walkFuel pendingBlocks)
      parent [(parent.hash P, parentEvmHash)] = some ((_ :: _).take maxWeightProofAnchorLag) :=
    pendingSources_eq hone (length_lineage_lt_walkFuel hacyclic _ parent)
  have hadd : addRecent = Capped.addNewUpTo Prod.fst maxWeightProofAnchorLag := rfl
  rw [weightProofSourceCandidates, hwalk, Option.map_some, hadd, Capped.foldl_addNewUpTo_take]
  rfl

/-! ### What always holds, and the condition -/

variable {U : HeaderPool P} {pending : PendingBlocks U} {parentEvmHash : String}
  {recent : List (BlockHash × String)}

theorem extends_of_ancestor (hparent : parent.header ∈ U.headers) {b : Block}
    (h : Ancestor (parentIn pending.blocks) parent b) :
    U.Extends parent.header b.header ∧ b.header ∈ U.headers := by
  induction h with
  | refl => exact ⟨.refl, hparent⟩
  | tail _ hc ih =>
    obtain ⟨hext, hmem⟩ := ih
    have hknown := pending.known hc
    exact ⟨hext.tail ⟨hmem, hknown, (pending.keyed hc).symm⟩, hknown⟩

theorem ranked_of_grounded (hg : U.Grounded parent.header) :
    Ranked (parentIn pending.blocks) (·.header.height) parent := by
  intro b hb p hp
  obtain ⟨hext, hmem⟩ := extends_of_ancestor hg.mem hb
  exact ((hg.of_extends hext).parent ⟨hmem, pending.known hp, (pending.keyed hp).symm⟩).2

/-- Heights that go up by one fall on the way down. -/
theorem heightsFall_of_grounded (hg : U.Grounded parent.header) :
    HeightsFall pending.blocks committedHeight parent := by
  intro b hb c hc _
  have hrank := ranked_of_grounded hg b hb c hc
  omega

/-- Where the heights of the pending blocks go up by one there is no cycle. -/
theorem acyclic_of_grounded (h : ∀ k b, pending.blocks.get? k = some b → U.Grounded b.header) :
    Acyclic (parentIn pending.blocks) := by
  apply @acyclic_of_rank_lt _ _ fun b : Block => b.header.height
  intro a b c hb hc
  have hparent : U.Parent b.header c.header :=
    ⟨pending.known hb, pending.known hc, (pending.keyed hc).symm⟩
  have hheight := ((h _ b hb).parent hparent).2
  omega

theorem header_mem_of_extends {x y : BlockHeader} (h : U.Extends x y) (hx : x ∈ U.headers) :
    y ∈ U.headers := by
  induction h with
  | refl => exact hx
  | tail _ hp _ => exact hp.parent_mem

/-- A header on the parent's chain is an anchor where its height is in the window. -/
theorem isAnchor_iff_of_extends (hparent : parent.header ∈ U.headers) {x : BlockHeader}
    (h : U.Extends parent.header x) : IsAnchor U parent (P.headerHash x) ↔
      inAnchorWindow (parent.header.height + 1) x.height = true := by
  constructor
  · rintro ⟨y, hy, hhash, hwindow⟩
    have heq : y = x := U.hash_injective y (header_mem_of_extends hy hparent) x
      (header_mem_of_extends h hparent) hhash
    rwa [heq] at hwindow
  · intro hwindow
    exact ⟨x, h, rfl, hwindow⟩

theorem mem_of_mem_lineage (hparent : parent.header ∈ U.headers) {n : ℕ} {b : Block}
    (hb : b ∈ lineage (parentIn pending.blocks) n parent) : b.header ∈ U.headers :=
  (extends_of_ancestor hparent (ancestor_of_mem_lineage hb)).2

/-- No two blocks of a walk have one hash: they would have one parent. -/
theorem nodup_hashes_lineage (hparent : parent.header ∈ U.headers)
    (hacyclic : Acyclic (parentIn pending.blocks)) {n : ℕ} :
    ((lineage (parentIn pending.blocks) n parent).map (Block.hash P)).Nodup := by
  refine List.pairwise_map.mpr (pairwise_transGen_lineage.imp_of_mem ?_)
  intro x y hx hy hxy hhash
  have hheader : x.header = y.header :=
    U.hash_injective _ (mem_of_mem_lineage hparent hx) _ (mem_of_mem_lineage hparent hy) hhash
  have hsame : parentIn pending.blocks x = parentIn pending.blocks y := by
    rw [parentIn, parentIn, hheader]
  obtain ⟨z, hz, hzy⟩ := Relation.TransGen.head'_iff.mp hxy
  exact hacyclic y (.head' (hsame ▸ hz) hzy)

theorem map_entryOf_sublist (parse : Bytes → Option JsonValue) (l : List Block) :
    ((l.filterMap (entryOf P parse)).map Prod.fst).Sublist (l.map (Block.hash P)) := by
  induction l with
  | nil => exact .slnil
  | cons b l ih =>
    rw [List.map_cons]
    cases hevm : evmBlockHashOf parse b with
    | none =>
      rw [List.filterMap_cons_none (entryOf_eq_none hevm)]
      exact ih.cons _
    | some evmHash =>
      have hentry : entryOf P parse b = some (b.hash P, evmHash) :=
        entryOf_eq_some.mpr ⟨hevm, rfl⟩
      rw [List.filterMap_cons_some hentry, List.map_cons]
      exact ih.cons_cons _

theorem nodup_allSources (hparent : parent.header ∈ U.headers)
    (hacyclic : Acyclic (parentIn pending.blocks)) :
    ((allSources P parse parent pending.blocks committedHeight parentEvmHash recent).map
      Prod.fst).Nodup := by
  apply Capped.nodup_foldl_addNew
  have hwalk : ((parent :: openAncestors pending.blocks committedHeight parent).map
      (Block.hash P)).Nodup :=
    (nodup_hashes_lineage hparent hacyclic).sublist (isPrefix_cons_reached.sublist.map _)
  exact hwalk.sublist ((map_entryOf_sublist parse _).cons_cons _)

theorem head?_allSources : (allSources P parse parent pendingBlocks committedHeight parentEvmHash
    recent).head? = some (parent.hash P, parentEvmHash) := by
  obtain ⟨rest, hrest, -⟩ := Capped.foldl_addNew_eq Prod.fst ((parent.hash P, parentEvmHash) ::
    (openAncestors pendingBlocks committedHeight parent).filterMap (entryOf P parse))
    recent.reverse
  rw [allSources, hrest]
  rfl

theorem anchors_take_iff {sources : List (BlockHash × String)} :
    (∀ e ∈ sources.take maxWeightProofAnchorLag, IsAnchor U parent e.1) ↔
      StaleComeLate U parent sources := by
  constructor
  · intro h i e hi hstale
    by_contra hlt
    refine hstale (h e (List.mem_of_getElem? (i := i) ?_))
    rw [List.getElem?_take, if_pos (by omega)]
    exact hi
  · intro h e he
    obtain ⟨i, hi, rfl⟩ := List.mem_take_iff_getElem.mp he
    by_contra hstale
    have hle := h i _ (List.getElem?_eq_getElem (by omega)) hstale
    omega

/-- The first sources are valid where no stale one is among them. -/
theorem validSources_take_iff (hparent : parent.header ∈ U.headers)
    (hacyclic : Acyclic (parentIn pending.blocks)) :
    ValidSources U parent parentEvmHash ((allSources P parse parent pending.blocks committedHeight
        parentEvmHash recent).take maxWeightProofAnchorLag) ↔
      StaleComeLate U parent (allSources P parse parent pending.blocks committedHeight
        parentEvmHash recent) := by
  rw [← anchors_take_iff]
  constructor
  · exact ValidSources.anchors
  · intro h
    constructor
    · exact List.length_take_le _ _
    · exact (nodup_allSources hparent hacyclic).sublist ((List.take_sublist _ _).map _)
    · rw [List.head?_take, if_neg (by decide), head?_allSources]
    · exact h

theorem isOpenChain_iff (hacyclic : Acyclic (parentIn pendingBlocks)) :
    IsOpenChain pendingBlocks committedHeight parent
        (climb (parentIn pendingBlocks) (isOpen committedHeight) (walkFuel pendingBlocks)
          parent).reverse ↔
      HeightsFall pendingBlocks committedHeight parent := by
  unfold HeightsFall
  rw [← isFall_climb_iff hacyclic (length_lineage_lt_walkFuel hacyclic _ parent)]
  constructor
  · intro h
    refine ⟨fun b => ?_, List.pairwise_reverse.mp h.ascending⟩
    rw [← h.mem_iff, List.mem_reverse]
    rfl
  · intro h
    refine ⟨fun b => ?_, List.pairwise_reverse.mpr h.falling⟩
    rw [List.mem_reverse]
    exact h.mem_iff b

theorem sourcesValid_iff_walks {calls : List CommitCall}
    (hacyclic : Acyclic (parentIn pending.blocks)) :
    SourcesValid U parse pending parent parentEvmHash committedHeight calls ↔
      IsOpenChain pending.blocks committedHeight parent
        (climb (parentIn pending.blocks) (isOpen committedHeight) (walkFuel pending.blocks)
          parent).reverse ∧
      ValidSources U parent parentEvmHash ((allSources P parse parent pending.blocks
        committedHeight parentEvmHash (recentCommitted P parse calls)).take
          maxWeightProofAnchorLag) := by
  constructor
  · rintro ⟨⟨chain, hchain, hopen⟩, out, hout, hvalid⟩
    rw [uncommittedChain_eq hacyclic, Option.some_inj] at hchain
    rw [weightProofSourceCandidates_eq hacyclic, Option.some_inj] at hout
    rw [hchain, hout]
    exact ⟨hopen, hvalid⟩
  · rintro ⟨hopen, hvalid⟩
    exact ⟨⟨_, uncommittedChain_eq hacyclic, hopen⟩,
      _, weightProofSourceCandidates_eq hacyclic, hvalid⟩

end

end Boule.ProofSources

/-! ### Twelve blocks on one chain -/

namespace Boule.Sample
open ProofSources

/-- Blocks with one payload each, of which the last three are pending. -/
def executedChain : ℕ → Block
  | 0 => genesis
  | n + 1 => { child (executedChain n) (n + 1) with commands := [[0]] }

theorem hash_executedChain (n : ℕ) : (executedChain n).hash primitives = n + 1 := by
  cases n <;> rfl

theorem height_executedChain (n : ℕ) : (executedChain n).header.height = n := by
  induction n with
  | zero => rfl
  | succ n ih => exact congrArg (· + 1) ih

def executedPool : HeaderPool primitives where
  headers := (List.range 13).map fun n => (executedChain n).header
  stateCommitment := 0
  historyCommitment := 0
  genesis_mem := List.mem_map.mpr ⟨0, by decide, rfl⟩
  hash_injective := by
    intro h hh h' hh' heq
    obtain ⟨n, -, rfl⟩ := List.mem_map.mp hh
    obtain ⟨m, -, rfl⟩ := List.mem_map.mp hh'
    have hsucc : n + 1 = m + 1 :=
      (hash_executedChain n).symm.trans (heq.trans (hash_executedChain m))
    rw [Nat.succ.inj hsucc]
  hash_ne_zero := by
    intro h hh
    obtain ⟨n, -, rfl⟩ := List.mem_map.mp hh
    intro hzero
    have hsucc : n + 1 = 0 := (hash_executedChain n).symm.trans hzero
    omega

theorem mem_executedPool {n : ℕ} (h : n < 13) : (executedChain n).header ∈ executedPool.headers :=
  List.mem_map.mpr ⟨n, List.mem_range.mpr h, rfl⟩

def executedPending : PendingBlocks executedPool :=
  ((PendingBlocks.empty.insert (executedChain 10) (mem_executedPool (by decide))).insert
    (executedChain 11) (mem_executedPool (by decide))).insert (executedChain 12)
      (mem_executedPool (by decide))

def executedPayload (_ : Bytes) : Option JsonValue :=
  some (.object [("stateRoot", .string (String.ofList (List.replicate 64 '0'))),
    ("blockHash", .string "0xe0")])

/-- Commits of the first nine blocks. -/
def nineCommits (answer : ℕ → ElAnswer) : List CommitCall :=
  (List.range 9).map fun n => ⟨executedChain (n + 1), answer (n + 1)⟩

theorem parent_executedChain {n : ℕ} (h : n + 1 < 13) :
    executedPool.Parent (executedChain (n + 1)).header (executedChain n).header :=
  ⟨mem_executedPool h, mem_executedPool (by omega), rfl⟩

theorem grounded_executedChain {n : ℕ} (h : n < 13) :
    executedPool.Grounded (executedChain n).header := by
  induction n with
  | zero => exact .genesis
  | succ n ih => exact .child (ih (by omega)) (parent_executedChain h) rfl

theorem extends_executedChain {n m : ℕ} (hnm : n + m < 13) :
    executedPool.Extends (executedChain (n + m)).header (executedChain n).header := by
  induction m with
  | zero => exact .refl
  | succ m ih => exact .head (parent_executedChain hnm) (ih (by omega))

theorem acyclic_executedPending : Lineage.Acyclic (parentIn executedPending.blocks) := by
  apply acyclic_of_grounded
  intro k b hb
  obtain ⟨n, hn, hheader⟩ := List.mem_map.mp (executedPending.known hb)
  rw [← hheader]
  exact grounded_executedChain (List.mem_range.mp hn)

theorem anchor_executedChain {n : ℕ} (h : n ≤ 12) (hwindow : 12 < n + 8) :
    IsAnchor executedPool (executedChain 12) (n + 1) := by
  have hext := extends_executedChain (n := n) (m := 12 - n) (by omega)
  rw [Nat.add_sub_cancel' h] at hext
  refine ⟨_, hext, hash_executedChain n, ?_⟩
  simp only [inAnchorWindow, height_executedChain, maxWeightProofAnchorLag, Bool.and_eq_true,
    decide_eq_true_iff]
  omega

/-- Only the first and the ninth commit find the execution layer in sync. -/
def answerInGap (n : ℕ) : ElAnswer := if n = 1 ∨ n = 9 then .valid else .syncing

/-- The ring then leads from block nine to block one, which no verifier takes at height thirteen. -/
theorem stale_source_offered : Lineage.Acyclic (parentIn executedPending.blocks) ∧
    (executedChain 12).header ∈ executedPool.headers ∧
    ¬ SourcesValid executedPool executedPayload executedPending (executedChain 12) "0xe0" 9
      (nineCommits answerInGap) := by
  refine ⟨acyclic_executedPending, mem_executedPool (by decide), ?_⟩
  rintro ⟨-, out, hout, hvalid⟩
  have hhashes : (ProofSources.weightProofSourceCandidates primitives executedPayload
      (executedChain 12) executedPending.blocks 9 "0xe0" (recentCommitted primitives
        executedPayload (nineCommits answerInGap))).map (List.map Prod.fst) =
      some [13, 12, 11, 10, 2] := by decide +kernel
  rw [hout, Option.map_some, Option.some_inj] at hhashes
  have hin : 2 ∈ out.map Prod.fst := by
    rw [hhashes]
    decide
  obtain ⟨e, he, hfst⟩ := List.mem_map.mp hin
  obtain ⟨x, hext, hhash, hwindow⟩ := hvalid.anchors e he
  have hblock : x = (executedChain 1).header :=
    executedPool.hash_injective x (header_mem_of_extends hext (mem_executedPool (by decide))) _
      (mem_executedPool (by decide)) (hhash.trans hfst)
  rw [hblock] at hwindow
  revert hwindow
  decide

end Boule.Sample
