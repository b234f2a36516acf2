import Boule.Node.TimeoutBuckets

/-! The two ways to ask for a quorum. A certificate compares thirds of the weights, a timeout
bucket compares with a rounded threshold; both accept the same sets of signers. -/
namespace Boule
open scoped BigOperators

namespace ValidatorSet
variable {vs : ValidatorSet}

/-- What a bucket holds once the timeout votes of `ids` were counted one after the other. -/
def accumulatedWeight (vs : ValidatorSet) (ids : List ValidatorId) : ℕ :=
  ids.foldl (fun acc id => saturatingAddU128 acc ((vs.weightFor id).getD 0)) 0

theorem quorumWeightThreshold_le_iff (w : ℕ) :
    vs.quorumWeightThreshold ≤ w ↔ 2 * vs.totalWeight < 3 * w := by
  have hlt := vs.totalWeight_lt
  unfold quorumWeightThreshold saturatingMulU128
  split_ifs <;> omega

theorem honestyWeightThreshold_le_iff (w : ℕ) :
    vs.honestyWeightThreshold ≤ w ↔ vs.totalWeight < 3 * w := by
  unfold honestyWeightThreshold
  split_ifs <;> omega

theorem heldBy_eq_sum (ids : List ValidatorId) :
    vs.heldBy ids = ∑ id ∈ ids.toFinset, (vs.weightFor id).getD 0 := by
  have hdedup : ids.dedup.toFinset = ids.toFinset := by
    ext id
    simp
  rw [heldBy, ← List.sum_toFinset _ ids.nodup_dedup, hdedup]

theorem weightFor_of_notMem {id : ValidatorId} (h : id ∉ vs.members) : vs.weightFor id = none := by
  have hindex : vs.indexOf id = none := by
    rw [indexOf, List.idxOf?_eq_none_iff]
    exact h
  rw [weightFor, hindex]
  rfl

theorem sum_members (vs : ValidatorSet) :
    ∑ id ∈ vs.members.toFinset, (vs.weightFor id).getD 0 = vs.totalWeight := by
  rw [List.sum_toFinset _ vs.nodup_members, totalWeight]
  congr 1
  apply List.ext_getElem
  · simp [vs.weights_length]
  · intro i hi hi'
    have hlt : i < vs.members.length := by simpa using hi
    have hindex : vs.indexOf vs.members[i] = some i :=
      (vs.indexOf_eq_some_iff _ i).mpr (List.getElem?_eq_getElem hlt)
    have hweight : i < vs.weights.length := vs.weights_length ▸ hlt
    simp only [List.getElem_map, weightFor, hindex, Option.map_some, Option.getD_some]
    exact vs.weightAt_eq_getElem hweight

/-- Distinct validators hold no more than all of them. -/
theorem heldBy_le (ids : List ValidatorId) : vs.heldBy ids ≤ vs.totalWeight := by
  have hmembers : ∑ id ∈ ids.toFinset, (vs.weightFor id).getD 0 ≤
      ∑ id ∈ vs.members.toFinset, (vs.weightFor id).getD 0 := by
    rw [← Finset.sum_filter_add_sum_filter_not ids.toFinset (· ∈ vs.members)]
    have hothers : ∑ id ∈ ids.toFinset with id ∉ vs.members, (vs.weightFor id).getD 0 = 0 := by
      refine Finset.sum_eq_zero fun id hid => ?_
      rw [weightFor_of_notMem (Finset.mem_filter.mp hid).2]
      rfl
    rw [hothers, Nat.add_zero]
    refine Finset.sum_le_sum_of_subset fun id hid => ?_
    exact List.mem_toFinset.mpr (Finset.mem_filter.mp hid).2
  rw [heldBy_eq_sum]
  exact hmembers.trans vs.sum_members.le

theorem foldl_weights (ids : List ValidatorId) (acc : ℕ)
    (h : acc + (ids.map fun id => (vs.weightFor id).getD 0).sum < 2 ^ 128) :
    ids.foldl (fun acc id => saturatingAddU128 acc ((vs.weightFor id).getD 0)) acc =
      acc + (ids.map fun id => (vs.weightFor id).getD 0).sum := by
  induction ids generalizing acc with
  | nil => rfl
  | cons id ids ih =>
    rw [List.map_cons, List.sum_cons] at h
    have hadd : saturatingAddU128 acc ((vs.weightFor id).getD 0) =
        acc + (vs.weightFor id).getD 0 := by
      unfold saturatingAddU128
      omega
    rw [List.foldl_cons, hadd, ih _ (by omega), List.map_cons, List.sum_cons]
    omega

/-- The saturating sum of a bucket is exact. -/
theorem accumulatedWeight_eq {ids : List ValidatorId} (h : ids.Nodup) :
    vs.accumulatedWeight ids = vs.heldBy ids := by
  have hle := vs.heldBy_le ids
  have hlt := vs.totalWeight_lt
  rw [heldBy, h.dedup] at hle ⊢
  rw [accumulatedWeight, foldl_weights ids 0 (by omega), Nat.zero_add]

end ValidatorSet

namespace QuorumCertificate
variable {qc qc' : QuorumCertificate} {vs : ValidatorSet}

/-- The positions of the set whose bit is set. -/
def setBits (qc : QuorumCertificate) (vs : ValidatorSet) : Finset ℕ :=
  (Finset.range vs.len).filter fun i => qc.signers.get i = true

theorem sized_of_isWellFormed {bitmap : SignerBitmap} (h : bitmap.isWellFormed = true) :
    bitmap.Sized := by
  unfold SignerBitmap.isWellFormed at h
  split_ifs at h with hlen hrest
  · exact not_not.mp hlen
  · exact not_not.mp hlen

theorem signerSet_eq_setBits (h : qc.signers.isWellFormed = true) :
    qc.signerSet vs = qc.setBits vs := by
  have hsized := sized_of_isWellFormed h
  ext i
  simp only [signerSet, setBits, List.mem_toFinset, List.mem_filter, hsized.mem_iterSet,
    decide_eq_true_eq, Finset.mem_filter, Finset.mem_range]
  exact and_comm

theorem setBits_subset (qc : QuorumCertificate) (vs : ValidatorSet) :
    qc.setBits vs ⊆ Finset.range vs.len := Finset.filter_subset _ _

theorem hasQuorum_iff_threshold (qc : QuorumCertificate) (vs : ValidatorSet) :
    qc.hasQuorum vs = true ↔ vs.quorumWeightThreshold ≤ qc.signerWeight vs := by
  rw [hasQuorum_iff, vs.quorumWeightThreshold_le_iff, signerWeight_eq,
    ValidatorSet.totalWeight_eq_weight, Quorum.IsQuorum]

/-- A quorum and a set that weighs the honesty threshold share a validator. -/
theorem not_subset_of_honesty (h : qc.signers.isWellFormed = true)
    (hq : qc.hasQuorum vs = true) {A : Finset ℕ}
    (hw : vs.honestyWeightThreshold ≤ Quorum.weight vs.weightAt A) :
    ¬ A ⊆ Finset.range vs.len \ qc.setBits vs := by
  intro hsub
  have hsplit := Finset.sum_sdiff (f := vs.weightAt) (qc.setBits_subset vs)
  have hle := Quorum.weight_mono vs.weightAt hsub
  rw [hasQuorum_iff, signerSet_eq_setBits h, Quorum.IsQuorum] at hq
  rw [vs.honestyWeightThreshold_le_iff, ValidatorSet.totalWeight_eq_weight] at hw
  unfold Quorum.weight at *
  omega

/-- Two quorums share the honesty threshold. -/
theorem honesty_le_inter (h : qc.signers.isWellFormed = true)
    (h' : qc'.signers.isWellFormed = true) (hq : qc.hasQuorum vs = true)
    (hq' : qc'.hasQuorum vs = true) :
    vs.honestyWeightThreshold ≤
      Quorum.weight vs.weightAt (qc.setBits vs ∩ qc'.setBits vs) := by
  rw [hasQuorum_iff, signerSet_eq_setBits h] at hq
  rw [hasQuorum_iff, signerSet_eq_setBits h'] at hq'
  have hinter := Quorum.weight_inter_of_isQuorum vs.weightAt (qc.setBits_subset vs)
    (qc'.setBits_subset vs) hq hq'
  rwa [vs.honestyWeightThreshold_le_iff, ValidatorSet.totalWeight_eq_weight]

/-- Timeout votes of a certificate's signers make a timeout certificate exactly when the
certificate has its quorum. -/
theorem hasQuorum_iff_accumulated {ids : List ValidatorId} (hids : ids.Nodup)
    (hvoters : ids.toFinset = qc.voters vs) :
    qc.hasQuorum vs = true ↔ vs.quorumWeightThreshold ≤ vs.accumulatedWeight ids := by
  have hheld : vs.heldBy ids = qc.signerWeight vs := by
    rw [ValidatorSet.heldBy_eq_sum, hvoters, signerWeight_eq_sum_voters]
  rw [hasQuorum_iff_threshold, ValidatorSet.accumulatedWeight_eq hids, hheld]

/-- No sum or product of weights, on the way to a certificate's quorum or in a timeout bucket,
reaches the end of `u128`. -/
structure ExactWeights (qc : QuorumCertificate) (vs : ValidatorSet) : Prop where
  total : 2 * vs.totalWeight < 2 ^ 128
  partials : ∀ l, l <+: qc.signers.iterSet →
    ((l.filter (· < vs.len)).map vs.weightAt).sum < 2 ^ 128
  signers : 3 * qc.signerWeight vs < 2 ^ 128
  buckets : ∀ ids : List ValidatorId, ids.Nodup →
    (ids.map fun id => (vs.weightFor id).getD 0).sum < 2 ^ 128

theorem exactWeights (qc : QuorumCertificate) (vs : ValidatorSet) : qc.ExactWeights vs := by
  have htotal := vs.totalWeight_lt
  constructor
  · omega
  · intro l hl
    have hnodup := (qc.signers.nodup_iterSet.sublist hl.sublist).filter (· < vs.len)
    have hsub : (l.filter (· < vs.len)).toFinset ⊆ Finset.range vs.len := by
      intro i hi
      simpa using (List.mem_filter.mp (List.mem_toFinset.mp hi)).2
    have hlt := vs.weight_lt hsub
    rw [Quorum.weight, List.sum_toFinset _ hnodup] at hlt
    exact hlt.trans (by norm_num)
  · have hlt := vs.weight_lt (qc.signerSet_subset vs)
    rw [signerWeight_eq]
    omega
  · intro ids hids
    have hle := vs.heldBy_le ids
    rw [ValidatorSet.heldBy, hids.dedup] at hle
    omega

end QuorumCertificate

/-- The arithmetic of weighted quorums: certificates and timeout buckets ask for the same, nothing
saturates, two quorums share the honesty threshold, and whoever holds that much weight meets every
quorum. -/
theorem quorum_arithmetic {vs : ValidatorSet} {qc qc' : QuorumCertificate}
    (h : qc.signers.isWellFormed = true) (h' : qc'.signers.isWellFormed = true) :
    (qc.hasQuorum vs = true ↔ vs.quorumWeightThreshold ≤ qc.signerWeight vs) ∧
    (∀ ids : List ValidatorId, ids.Nodup → ids.toFinset = qc.voters vs →
      (qc.hasQuorum vs = true ↔ vs.quorumWeightThreshold ≤ vs.accumulatedWeight ids)) ∧
    qc.ExactWeights vs ∧
    (qc.hasQuorum vs = true → qc'.hasQuorum vs = true →
      vs.honestyWeightThreshold ≤
        Quorum.weight vs.weightAt (qc.setBits vs ∩ qc'.setBits vs)) ∧
    (qc.hasQuorum vs = true → ∀ A : Finset ℕ,
      vs.honestyWeightThreshold ≤ Quorum.weight vs.weightAt A →
        ¬ A ⊆ Finset.range vs.len \ qc.setBits vs) :=
  ⟨qc.hasQuorum_iff_threshold vs, fun _ => QuorumCertificate.hasQuorum_iff_accumulated,
    qc.exactWeights vs, QuorumCertificate.honesty_le_inter h h',
    fun hq _ => QuorumCertificate.not_subset_of_honesty h hq⟩

namespace Sample

/-- Two quorums of three out of four share two validators, and two is the honesty threshold. -/
theorem three_of_four_share :
    validators.honestyWeightThreshold = 2 ∧ 2 ≤ Quorum.weight validators.weightAt
      ((certify d₁.block [0, 1, 3]).setBits validators ∩
        (certify d₁.block [1, 2, 3]).setBits validators) := by
  have hthreshold : validators.honestyWeightThreshold = 2 := by decide
  have hfirst : (certify d₁.block [0, 1, 3]).signers.isWellFormed = true := by decide +kernel
  have hsecond : (certify d₁.block [1, 2, 3]).signers.isWellFormed = true := by decide +kernel
  obtain ⟨-, -, -, hshare, -⟩ := @quorum_arithmetic validators _ _ hfirst hsecond
  rw [hthreshold] at hshare
  exact ⟨hthreshold, hshare (by decide +kernel) (by decide +kernel)⟩

end Sample

end Boule
