import Mathlib.Algebra.BigOperators.Group.Finset.Basic
import Mathlib.Algebra.Order.BigOperators.Group.Finset

/-! Weighted quorums. A quorum weighs more than two thirds of the whole. -/
namespace Boule.Quorum
open scoped BigOperators

variable {ι : Type} (w : ι → ℕ)

/-- The total weight of a set of participants. -/
def weight (A : Finset ι) : ℕ := ∑ i ∈ A, w i

/-- `A` weighs more than two thirds of `U`. -/
def IsQuorum (U A : Finset ι) : Prop := 2 * weight w U < 3 * weight w A

theorem weight_mono {A B : Finset ι} (h : A ⊆ B) : weight w A ≤ weight w B :=
  Finset.sum_le_sum_of_subset h

variable [DecidableEq ι]

theorem weight_union_add_inter (A B : Finset ι) :
    weight w (A ∪ B) + weight w (A ∩ B) = weight w A + weight w B :=
  Finset.sum_union_inter

/-- Two quorums share more than one third of the weight. -/
theorem weight_inter_of_isQuorum {U A B : Finset ι} (hA : A ⊆ U) (hB : B ⊆ U)
    (hqA : IsQuorum w U A) (hqB : IsQuorum w U B) :
    weight w U < 3 * weight w (A ∩ B) := by
  have hu : weight w (A ∪ B) ≤ weight w U := weight_mono w (Finset.union_subset hA hB)
  have hi := weight_union_add_inter w A B
  unfold IsQuorum at hqA hqB
  omega

/-- Two quorums share a participant outside any set of less than one third of the weight. -/
theorem exists_common_of_isQuorum {U A B : Finset ι} (hA : A ⊆ U) (hB : B ⊆ U)
    (hqA : IsQuorum w U A) (hqB : IsQuorum w U B) (Z : Finset ι)
    (hz : 3 * weight w Z ≤ weight w U) : ∃ i ∈ A, i ∈ B ∧ i ∉ Z := by
  by_contra h
  push Not at h
  have hsub : A ∩ B ⊆ Z := by
    intro i hi
    obtain ⟨ha, hb⟩ := Finset.mem_inter.mp hi
    exact h i ha hb
  have hw := weight_mono w hsub
  have hi := weight_inter_of_isQuorum w hA hB hqA hqB
  omega

end Boule.Quorum
