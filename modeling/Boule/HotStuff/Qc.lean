import Boule.SignerBitmap
import Boule.ValidatorSet

/-! Quorum certificates and the messages that carry them. -/
namespace Boule
open scoped BigOperators

structure QuorumCertificate where
  view : ℕ
  blockHash : BlockHash
  signers : SignerBitmap
  signatures : BlsAggregate
  deriving DecidableEq

/-- `BLS_EMPTY_AGGREGATE_SENTINEL` -/
def emptyAggregate : BlsAggregate := 0

namespace QuorumCertificate

def new (view : ℕ) (blockHash : BlockHash) (validatorSetLen : ℕ) : QuorumCertificate :=
  ⟨view, blockHash, SignerBitmap.new validatorSetLen, emptyAggregate⟩

/-- `BlsAggregated::add_partial`: the first partial replaces the sentinel. -/
def addPartial (P : Primitives) (agg : BlsAggregate) (sig : BlsPartialSig) : BlsAggregate :=
  if agg = emptyAggregate then sig else P.addSignature agg sig

def addBlsPartial (P : Primitives) (qc : QuorumCertificate) (validatorIdx : ℕ)
    (sig : BlsPartialSig) : QuorumCertificate :=
  if qc.signers.get validatorIdx then qc
  else
    { qc with
      signatures := addPartial P qc.signatures sig
      signers := qc.signers.set validatorIdx }

def signerCount (qc : QuorumCertificate) : ℕ := qc.signers.count

def signerWeight (qc : QuorumCertificate) (vs : ValidatorSet) : ℕ :=
  qc.signers.iterSet.foldl
    (fun acc idx => if vs.len ≤ idx then acc else saturatingAddU128 acc (vs.weightAt idx)) 0

def hasQuorum (qc : QuorumCertificate) (vs : ValidatorSet) : Bool :=
  saturatingMulU128 2 vs.totalWeight < saturatingMulU128 3 (qc.signerWeight vs)

def isWellFormed (qc : QuorumCertificate) (vs : ValidatorSet) : Bool :=
  if qc.signers.len ≠ vs.len || !qc.signers.isWellFormed then false
  else (qc.signers.count == 0) == (qc.signatures == emptyAggregate)

/-- The indices of `vs` whose bit is set. -/
def signerSet (qc : QuorumCertificate) (vs : ValidatorSet) : Finset ℕ :=
  (qc.signers.iterSet.filter (· < vs.len)).toFinset

theorem signerSet_subset (qc : QuorumCertificate) (vs : ValidatorSet) :
    qc.signerSet vs ⊆ Finset.range vs.len := by
  intro i hi
  rw [signerSet, List.mem_toFinset, List.mem_filter] at hi
  simpa using hi.2

private theorem foldl_saturating (vs : ValidatorSet) (l : List ℕ) (acc : ℕ)
    (h : acc + ((l.filter (· < vs.len)).map vs.weightAt).sum < 2 ^ 128) :
    l.foldl (fun acc idx => if vs.len ≤ idx then acc
      else saturatingAddU128 acc (vs.weightAt idx)) acc =
      acc + ((l.filter (· < vs.len)).map vs.weightAt).sum := by
  induction l generalizing acc with
  | nil => simp
  | cons i l ih =>
    rw [List.foldl_cons]
    by_cases hi : vs.len ≤ i
    · have hn : ¬ i < vs.len := by omega
      simp only [hi, if_true, hn, decide_false, Bool.false_eq_true, not_false_eq_true,
        List.filter_cons_of_neg] at h ⊢
      exact ih acc h
    · have hlt : i < vs.len := by omega
      simp only [hi, if_false, hlt, decide_true, List.filter_cons_of_pos, List.map_cons,
        List.sum_cons] at h ⊢
      have hs : saturatingAddU128 acc (vs.weightAt i) = acc + vs.weightAt i := by
        unfold saturatingAddU128
        omega
      rw [hs, ih _ (by omega)]
      omega

/-- No addition saturates: each signer's weight counts exactly once. -/
theorem signerWeight_eq (qc : QuorumCertificate) (vs : ValidatorSet) :
    qc.signerWeight vs = Quorum.weight vs.weightAt (qc.signerSet vs) := by
  have hw : Quorum.weight vs.weightAt (qc.signerSet vs) =
      ((qc.signers.iterSet.filter (· < vs.len)).map vs.weightAt).sum :=
    List.sum_toFinset _ (qc.signers.nodup_iterSet.filter _)
  have hlt := vs.weight_lt (qc.signerSet_subset vs)
  rw [hw] at hlt ⊢
  unfold signerWeight
  rw [foldl_saturating vs _ 0 (by omega), Nat.zero_add]

/-- The saturating comparison is the comparison over the natural numbers. -/
theorem hasQuorum_iff (qc : QuorumCertificate) (vs : ValidatorSet) :
    qc.hasQuorum vs = true ↔
      Quorum.IsQuorum vs.weightAt (Finset.range vs.len) (qc.signerSet vs) := by
  have ht := vs.weight_lt (Finset.Subset.refl (Finset.range vs.len))
  have hs := vs.weight_lt (qc.signerSet_subset vs)
  unfold hasQuorum saturatingMulU128 Quorum.IsQuorum
  rw [signerWeight_eq, ValidatorSet.totalWeight_eq_weight, decide_eq_true_iff]
  omega

/-- The members of `vs` whose bit is set. -/
def voters (qc : QuorumCertificate) (vs : ValidatorSet) : Finset ValidatorId :=
  vs.members.toFinset.filter fun id => ∃ i ∈ vs.indexOf id, i ∈ qc.signers.iterSet

theorem mem_voters {qc : QuorumCertificate} {vs : ValidatorSet} {id : ValidatorId} :
    id ∈ qc.voters vs ↔ ∃ i, vs.indexOf id = some i ∧ i ∈ qc.signers.iterSet := by
  rw [voters, Finset.mem_filter, List.mem_toFinset]
  constructor
  · exact fun h => h.2
  · rintro ⟨i, hi, hs⟩
    exact ⟨List.mem_of_getElem? ((vs.indexOf_eq_some_iff id i).mp hi), i, hi, hs⟩

/-- The signers' weight is the sum over distinct validators. -/
theorem signerWeight_eq_sum_voters (qc : QuorumCertificate) (vs : ValidatorSet) :
    qc.signerWeight vs = ∑ id ∈ qc.voters vs, (vs.weightFor id).getD 0 := by
  rw [signerWeight_eq, Quorum.weight]
  symm
  refine Finset.sum_bij (fun id _ => (vs.indexOf id).getD 0) ?_ ?_ ?_ ?_
  · intro id hid
    obtain ⟨i, hi, hs⟩ := mem_voters.mp hid
    have hlt := ValidatorSet.indexOf_lt hi
    simp [hi, signerSet, hs, hlt]
  · intro a ha b hb hab
    obtain ⟨i, hi, -⟩ := mem_voters.mp ha
    obtain ⟨j, hj, -⟩ := mem_voters.mp hb
    rw [hi, hj] at hab
    obtain rfl : i = j := hab
    exact ValidatorSet.indexOf_inj hi hj
  · intro i hi
    rw [signerSet, List.mem_toFinset, List.mem_filter, decide_eq_true_iff] at hi
    obtain ⟨id, hid⟩ := vs.exists_indexOf hi.2
    exact ⟨id, mem_voters.mpr ⟨i, hid, hi.1⟩, by rw [hid]; rfl⟩
  · intro id hid
    obtain ⟨i, hi, -⟩ := mem_voters.mp hid
    simp [ValidatorSet.weightFor, hi]

section addBlsPartial
variable (P : Primitives) (qc : QuorumCertificate) (i : ℕ) (sig : BlsPartialSig)

@[simp] theorem addBlsPartial_view : (qc.addBlsPartial P i sig).view = qc.view := by
  unfold addBlsPartial
  split_ifs <;> rfl

@[simp] theorem addBlsPartial_blockHash :
    (qc.addBlsPartial P i sig).blockHash = qc.blockHash := by
  unfold addBlsPartial
  split_ifs <;> rfl

@[simp] theorem addBlsPartial_len :
    (qc.addBlsPartial P i sig).signers.len = qc.signers.len := by
  unfold addBlsPartial
  split_ifs
  · rfl
  · exact SignerBitmap.set_len _ _

theorem addBlsPartial_sized (h : qc.signers.Sized) :
    (qc.addBlsPartial P i sig).signers.Sized := by
  unfold addBlsPartial
  split_ifs
  · exact h
  · exact h.set i

theorem addBlsPartial_get (h : qc.signers.Sized) (hi : i < qc.signers.len) (j : ℕ) :
    (qc.addBlsPartial P i sig).signers.get j = (decide (j = i) || qc.signers.get j) := by
  unfold addBlsPartial
  split_ifs with hg
  · by_cases hj : j = i
    · rw [hj, hg, Bool.or_true]
    · simp [hj]
  · exact SignerBitmap.get_set _ i j hi h

end addBlsPartial

theorem signerCount_ne_zero_of_hasQuorum {qc : QuorumCertificate} {vs : ValidatorSet}
    (h : qc.hasQuorum vs = true) : qc.signerCount ≠ 0 := by
  intro hc
  have hn : qc.signers.iterSet = [] := SignerBitmap.iterSet_eq_nil_of_count_eq_zero hc
  have he : qc.signerSet vs = ∅ := by simp [signerSet, hn]
  rw [hasQuorum_iff, he] at h
  simp [Quorum.IsQuorum, Quorum.weight] at h

end QuorumCertificate

structure Proposal where
  block : Block
  justify : QuorumCertificate
  deriving DecidableEq

structure Vote where
  view : ℕ
  blockHash : BlockHash
  deriving DecidableEq

structure NewView where
  highQc : QuorumCertificate
  deriving DecidableEq

structure TimeoutVote where
  view : ℕ
  highQc : Option QuorumCertificate
  deriving DecidableEq

inductive ConsensusMsg where
  | proposal (p : Proposal)
  | vote (v : Vote)
  | newView (nv : NewView)
  deriving DecidableEq

/-- A payload with its Ed25519 envelope. -/
structure Signed (α : Type) where
  payload : α
  signer : NodeId
  sig : ℕ
  deriving DecidableEq

/-- A payload whose signer was resolved to a validator. -/
structure Verified (α : Type) where
  value : α
  signerValidatorId : ValidatorId
  deriving DecidableEq

def genesisQc (P : Primitives) (genesis : Block) (vs : ValidatorSet) : QuorumCertificate :=
  .new 0 (genesis.hash P) vs.len

end Boule
