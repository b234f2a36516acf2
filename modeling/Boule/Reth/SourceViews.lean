import Boule.Reth.ProofSources

/-! The candidates of the weight proofs are those of the consensus blocks that the application's
blocks stand for. -/
namespace Boule.ProofSources
open Lineage

/-- A consensus block as the application reads it, with the payload of its first command; whom its
evidence convicts does not matter before it is committed. -/
def rethBlockOf (P : Primitives) (payloadOf : Block → Option ExecutionPayload) (b : Block) :
    RethBlock :=
  ⟨b.hash P, b.header.parentHash, b.header.height, payloadOf b, []⟩

/-- The application's pending blocks stand for those of consensus, and its payloads are those that
name an execution block. -/
structure Views (P : Primitives) (parse : Bytes → Option JsonValue)
    (payloadOf : Block → Option ExecutionPayload) (pendingBlocks : Table BlockHash Block)
    (pending : Table BlockHash RethBlock) : Prop where
  get?_eq : ∀ h, pending.get? h = (pendingBlocks.get? h).map (rethBlockOf P payloadOf)
  size_eq : pending.size = pendingBlocks.size
  isSome_eq : ∀ b, (payloadOf b).isSome = (evmBlockHashOf parse b).isSome

variable {P : Primitives} {parse : Bytes → Option JsonValue}
  {payloadOf : Block → Option ExecutionPayload} {pendingBlocks : Table BlockHash Block}
  {pending : Table BlockHash RethBlock} {committedHeight : ℕ} {parent : Block}

theorem uncommittedSources_hashes (hviews : Views P parse payloadOf pendingBlocks pending)
    {fuel : ℕ} {cursor : Block} {out : List SourceCandidate}
    (hout : out.length ≤ maxWeightProofAnchorLag) :
    (uncommittedSources pending committedHeight fuel (rethBlockOf P payloadOf cursor) out).map
        SourceCandidate.blockHash =
      (out.map SourceCandidate.blockHash ++ ((reached (parentIn pendingBlocks)
        (isOpen committedHeight) fuel cursor).filterMap (entryOf P parse)).map Prod.fst).take
          maxWeightProofAnchorLag := by
  have hfull : ∀ out : List SourceCandidate, out.length ≤ maxWeightProofAnchorLag →
      (out.map SourceCandidate.blockHash).take maxWeightProofAnchorLag =
        out.map SourceCandidate.blockHash := by
    intro out hout
    exact List.take_of_length_le (by rwa [List.length_map])
  induction fuel generalizing cursor out with
  | zero =>
    have hnone : reached (parentIn pendingBlocks) (isOpen committedHeight) 0 cursor = [] := rfl
    rw [uncommittedSources, hnone, List.filterMap_nil, List.map_nil, List.append_nil,
      hfull out hout]
  | succ fuel ih =>
    rw [uncommittedSources]
    by_cases hlen : maxWeightProofAnchorLag ≤ out.length
    · have heq : (out.map SourceCandidate.blockHash).length = maxWeightProofAnchorLag := by
        rw [List.length_map]
        omega
      rw [if_pos (by simp [hlen]), ← heq, List.take_left]
    · by_cases hheight : cursor.header.height ≤ committedHeight
      · have hmore : ¬ isOpen committedHeight cursor = true := by simpa [isOpen] using hheight
        rw [if_pos (by simp [rethBlockOf, hheight]), reached_of_not hmore, List.filterMap_nil,
          List.map_nil, List.append_nil, hfull out hout]
      · have hmore : isOpen committedHeight cursor = true := by simpa [isOpen] using hheight
        have hget : pending.get? (rethBlockOf P payloadOf cursor).parentHash =
            (parentIn pendingBlocks cursor).map (rethBlockOf P payloadOf) := hviews.get?_eq _
        rw [if_neg (by simp [rethBlockOf, hheight, hlen]), hget]
        cases hp : parentIn pendingBlocks cursor with
        | none =>
          rw [reached_of_none hp, List.filterMap_nil, List.map_nil, List.append_nil, hfull out hout]
          rfl
        | some next =>
          have hsome : (rethBlockOf P payloadOf next).payload.isSome =
              (evmBlockHashOf parse next).isSome := hviews.isSome_eq next
          rw [reached_of_some hmore hp, Option.map_some]
          simp only [hsome]
          cases hevm : evmBlockHashOf parse next with
          | none =>
            rw [List.filterMap_cons_none (entryOf_eq_none hevm), Option.isSome_none,
              if_neg Bool.false_ne_true]
            exact ih hout
          | some evmHash =>
            have hentry : entryOf P parse next = some (next.hash P, evmHash) :=
              entryOf_eq_some.mpr ⟨hevm, rfl⟩
            have hout' : (out ++ [(rethBlockOf P payloadOf next).source]).length ≤
                maxWeightProofAnchorLag := by
              rw [List.length_append, List.length_singleton]
              omega
            rw [List.filterMap_cons_some hentry, List.map_cons, Option.isSome_some, if_pos rfl,
              ih hout', List.map_append, List.append_assoc]
            rfl

/-- The candidates have the same hashes. -/
theorem map_blockHash_candidates (hviews : Views P parse payloadOf pendingBlocks pending)
    (hacyclic : Acyclic (parentIn pendingBlocks)) {parentEvmHash : String}
    {recent : List (BlockHash × String)} {recentSources : List SourceCandidate}
    (hrecent : recentSources.map SourceCandidate.blockHash = recent.map Prod.fst) :
    (weightProofSourceCandidates P parse parent pendingBlocks committedHeight parentEvmHash
        recent).map (List.map Prod.fst) =
      some ((Boule.weightProofSourceCandidates (rethBlockOf P payloadOf parent) pending
        committedHeight recentSources).map SourceCandidate.blockHash) := by
  have hone : [(rethBlockOf P payloadOf parent).source].length ≤ maxWeightProofAnchorLag := by
    show 1 ≤ maxWeightProofAnchorLag
    decide
  have hlt : (lineage (parentIn pendingBlocks) (pendingBlocks.size + 1 + 1) parent).length <
      pendingBlocks.size + 2 := length_lineage_lt_walkFuel hacyclic _ parent
  have hended : lineage (parentIn pendingBlocks) (pendingBlocks.size + 2) parent =
      lineage (parentIn pendingBlocks) (pendingBlocks.size + 1) parent :=
    lineage_succ_of_length_le (by omega)
  have hwalk : reached (parentIn pendingBlocks) (isOpen committedHeight) (pending.size + 1)
      parent = openAncestors pendingBlocks committedHeight parent := by
    rw [hviews.size_eq, openAncestors, walkFuel, reached, reached, climb, climb, hended]
  have hadd : (fun (out : List SourceCandidate) c =>
      if maxWeightProofAnchorLag ≤ out.length || out.any (·.blockHash = c.blockHash) then out
      else out ++ [c]) =
        Capped.addNewUpTo SourceCandidate.blockHash maxWeightProofAnchorLag := by
    funext out c
    unfold Capped.addNewUpTo Capped.addNew
    by_cases hlen : maxWeightProofAnchorLag ≤ out.length
    · simp [hlen]
    · simp [hlen]
  rw [weightProofSourceCandidates_eq hacyclic, Option.map_some, Boule.weightProofSourceCandidates,
    hadd, Capped.map_foldl_addNewUpTo, uncommittedSources_hashes hviews hone, hwalk,
    List.map_reverse, hrecent, allSources, ← Capped.foldl_addNewUpTo_take,
    Capped.map_foldl_addNewUpTo, List.map_reverse, List.map_take, List.map_cons]
  rfl

end Boule.ProofSources
