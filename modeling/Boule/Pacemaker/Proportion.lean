import Boule.Lib.Shares
import Boule.Pacemaker.Schedule
import Mathlib.Algebra.BigOperators.Fin

/-! Leadership in proportion to weight. The accumulator is a smooth weighted round robin: over as
many views as the total weight every validator leads as often as its weight says. -/
namespace Boule

namespace Proportion
variable {vs : ValidatorSet} {priorities : List ℤ}

theorem total_weightAt (vs : ValidatorSet) :
    Shares.total (Finset.range vs.len) vs.weightAt = vs.totalWeight :=
  vs.totalWeight_eq_weight.symm

/-- The priorities with the weights added, without a limit. -/
def exactRaised (vs : ValidatorSet) (priorities : List ℤ) : List ℤ :=
  List.zipWith (fun p (w : UInt64) => p + w.toNat) priorities vs.weights

/-- Neither the additions of a step nor the subtraction leave the range of `i128`. -/
def NoneSaturates (vs : ValidatorSet) (priorities : List ℤ) : Prop :=
  ∀ x ∈ exactRaised vs priorities, -2 ^ 127 ≤ x - vs.totalWeight ∧ x < 2 ^ 127

theorem accumulatorStep_of_noneSaturates (h : NoneSaturates vs priorities) :
    accumulatorStep vs priorities =
      ((exactRaised vs priorities).modify (firstMax (exactRaised vs priorities))
        fun p => p - vs.totalWeight, firstMax (exactRaised vs priorities)) := by
  have hraised : List.zipWith (fun p (w : UInt64) => saturateI128 (p + w.toNat)) priorities
      vs.weights = exactRaised vs priorities := by
    have hmap : List.zipWith (fun p (w : UInt64) => saturateI128 (p + w.toNat)) priorities
        vs.weights = (exactRaised vs priorities).map saturateI128 := by
      rw [exactRaised, List.map_zipWith]
    rw [hmap]
    refine (List.map_congr_left fun x hx => ?_).trans (List.map_id _)
    obtain ⟨hlow, hhigh⟩ := h x hx
    exact saturateI128_eq (by omega) hhigh
  unfold accumulatorStep
  rw [hraised]
  refine Prod.ext ?_ rfl
  apply List.ext_getElem
  · simp
  · intro i hi hi'
    have hlt : i < (exactRaised vs priorities).length := by simpa using hi
    obtain ⟨hlow, hhigh⟩ := h _ (List.getElem_mem hlt)
    simp only [List.getElem_modify]
    split_ifs
    · exact saturateI128_eq hlow (by omega)
    · rfl

theorem length_exactRaised (hlen : priorities.length = vs.len) :
    (exactRaised vs priorities).length = vs.len := by
  have hweights : vs.weights.length = vs.len := vs.weights_length
  rw [exactRaised, List.length_zipWith, hlen, hweights, Nat.min_self]

theorem getD_exactRaised (hlen : priorities.length = vs.len) {i : ℕ} (hi : i < vs.len) :
    (exactRaised vs priorities).getD i 0 = priorities.getD i 0 + vs.weightAt i := by
  have hweights : vs.weights.length = vs.len := vs.weights_length
  have hraised := length_exactRaised hlen
  rw [List.getD_eq_getElem _ _ (hraised ▸ hi), List.getD_eq_getElem _ _ (hlen ▸ hi),
    vs.weightAt_eq_getElem (hweights ▸ hi)]
  exact List.getElem_zipWith

/-- A step that saturates nowhere is a round of weighted shares. -/
theorem round_accumulatorStep (hvs : 0 < vs.len) (hlen : priorities.length = vs.len)
    (h : NoneSaturates vs priorities) :
    Shares.Round (Finset.range vs.len) vs.weightAt (fun i => priorities.getD i 0)
      (fun i => (accumulatorStep vs priorities).1.getD i 0) (accumulatorStep vs priorities).2 := by
  have hraised := length_exactRaised hlen
  have hne : exactRaised vs priorities ≠ [] := by
    rw [← List.length_pos_iff, hraised]
    exact hvs
  obtain ⟨x, hx, hmax⟩ := isFirstMax_firstMax hne
  rw [accumulatorStep_of_noneSaturates h]
  set best := firstMax (exactRaised vs priorities) with hbest
  have hlt : best < vs.len := hraised ▸ (List.getElem?_eq_some_iff.mp hx).1
  have hget : (exactRaised vs priorities).getD best 0 = x := by
    rw [List.getD_eq_getElem?_getD, hx]
    rfl
  constructor
  · exact Finset.mem_range.mpr hlt
  · intro i hi
    have hi' : i < (exactRaised vs priorities).length := hraised ▸ Finset.mem_range.mp hi
    have hle := (hmax i _ (List.getElem?_eq_getElem hi')).1
    rw [← getD_exactRaised hlen (Finset.mem_range.mp hi), ← getD_exactRaised hlen hlt, hget,
      List.getD_eq_getElem _ _ hi']
    exact hle
  · intro i hi
    have hi' : i < (exactRaised vs priorities).length := hraised ▸ Finset.mem_range.mp hi
    rw [total_weightAt, ← getD_exactRaised hlen (Finset.mem_range.mp hi),
      List.getD_eq_getElem _ _ hi', List.getD_eq_getElem _ _ (by simpa using hi'),
      List.getElem_modify]
    by_cases hib : i = best
    · rw [if_pos hib.symm, if_pos hib]
    · rw [if_neg fun h => hib h.symm, if_neg hib, sub_zero]

/-- Balanced priorities stay far inside the range of `i128`. -/
theorem noneSaturates_of_balanced (hvs : 0 < vs.len) (hlen : priorities.length = vs.len)
    (h : Shares.Balanced (Finset.range vs.len) vs.weightAt fun i => priorities.getD i 0) :
    NoneSaturates vs priorities := by
  have hW := Schedule.totalWeight_lt vs
  have hn : vs.len < 2 ^ 32 := vs.length_lt
  intro x hx
  obtain ⟨i, hi, rfl⟩ := List.getElem_of_mem hx
  rw [length_exactRaised hlen] at hi
  rw [← List.getD_eq_getElem _ 0, getD_exactRaised hlen hi]
  have hmem := Finset.mem_range.mpr hi
  have hlower := h.lower i hmem
  have hupper := h.upper hmem
  have hweight := vs.weightAt_lt i
  rw [total_weightAt] at hlower
  rw [total_weightAt, Finset.card_range] at hupper
  have hharmonic : harmonic vs.len - 1 ≤ 2 ^ 31 - 1 := by
    have hle := Shares.harmonic_le (Nat.succ_le_of_lt hvs)
    have hn' : (vs.len : ℚ) + 1 ≤ 2 ^ 32 := by exact_mod_cast Nat.succ_le_of_lt hn
    linarith
  have hbound : ((priorities.getD i 0 : ℤ) : ℚ) ≤ 2 ^ 96 * (2 ^ 31 - 1) := by
    have hWq : (vs.totalWeight : ℚ) ≤ 2 ^ 96 := by exact_mod_cast hW.le
    have hW0 : (0 : ℚ) ≤ vs.totalWeight := by positivity
    calc ((priorities.getD i 0 : ℤ) : ℚ) ≤ vs.totalWeight * (harmonic vs.len - 1) := hupper
      _ ≤ vs.totalWeight * (2 ^ 31 - 1) := mul_le_mul_of_nonneg_left hharmonic hW0
      _ ≤ 2 ^ 96 * (2 ^ 31 - 1) := mul_le_mul_of_nonneg_right hWq (by norm_num)
  have hbound' : priorities.getD i 0 ≤ 2 ^ 96 * (2 ^ 31 - 1) := by exact_mod_cast hbound
  constructor
  · omega
  · omega

theorem totalWeight_pos (hvs : 0 < vs.len) : 0 < vs.totalWeight := by
  rw [ValidatorSet.totalWeight_eq_weight]
  have hmem : 0 ∈ Finset.range vs.len := Finset.mem_range.mpr hvs
  exact Finset.sum_pos' (fun _ _ => Nat.zero_le _) ⟨0, hmem, weightAt_pos hvs⟩

theorem balanced_replay (hvs : 0 < vs.len) (t : ℕ) :
    Shares.Balanced (Finset.range vs.len) vs.weightAt fun i => (replay vs t).1.getD i 0 := by
  have hpos : 0 < Shares.total (Finset.range vs.len) vs.weightAt :=
    (total_weightAt vs).symm ▸ totalWeight_pos hvs
  induction t with
  | zero =>
    have hzero : (fun i => (replay vs 0).1.getD i 0) = fun _ => 0 := by
      funext i
      show (List.replicate vs.len (0 : ℤ)).getD i 0 = 0
      rw [List.getD_eq_getElem?_getD, List.getElem?_replicate]
      split_ifs <;> rfl
    rw [hzero]
    exact Shares.balanced_zero hpos
  | succ t ih =>
    have hlen := length_replay vs t
    have hround := round_accumulatorStep hvs hlen (noneSaturates_of_balanced hvs hlen ih)
    rw [← replay_succ] at hround
    exact hround.balanced ih hpos

theorem round_replay (hvs : 0 < vs.len) (t : ℕ) :
    Shares.Round (Finset.range vs.len) vs.weightAt (fun i => (replay vs t).1.getD i 0)
      (fun i => (replay vs (t + 1)).1.getD i 0) (replay vs (t + 1)).2 := by
  have hlen := length_replay vs t
  rw [replay_succ]
  exact round_accumulatorStep hvs hlen
    (noneSaturates_of_balanced hvs hlen (balanced_replay hvs t))

theorem priority_zero (vs : ValidatorSet) :
    ∀ i ∈ Finset.range vs.len, (replay vs 0).1.getD i 0 = 0 := by
  intro i hi
  exact List.getD_replicate _ (Finset.mem_range.mp hi)

theorem priority_replay (hvs : 0 < vs.len) (t : ℕ) {i : ℕ} (hi : i < vs.len) :
    (replay vs t).1.getD i 0 =
      t * vs.weightAt i - vs.totalWeight * t.count fun k => (replay vs (k + 1)).2 = i := by
  have heq := Shares.priority_eq (round_replay hvs) (priority_zero vs) t i (Finset.mem_range.mpr hi)
  rwa [total_weightAt] at heq

theorem count_totalWeight (hvs : 0 < vs.len) {i : ℕ} (hi : i < vs.len) :
    (vs.totalWeight.count fun k => (replay vs (k + 1)).2 = i) = vs.weightAt i := by
  have hpos : 0 < Shares.total (Finset.range vs.len) vs.weightAt :=
    (total_weightAt vs).symm ▸ totalWeight_pos hvs
  have hcount := Shares.count_total (round_replay hvs) (priority_zero vs) hpos
    (balanced_replay hvs _) i (Finset.mem_range.mpr hi)
  rwa [total_weightAt] at hcount

/-- After as many views as the total weight the accumulator starts again. -/
theorem priorities_totalWeight (hvs : 0 < vs.len) :
    (replay vs vs.totalWeight).1 = zeroPriorities vs := by
  have hlen := length_replay vs vs.totalWeight
  apply List.ext_getElem
  · rw [hlen, zeroPriorities, List.length_replicate]
  · intro i hi hi'
    have hlt : i < vs.len := hlen ▸ hi
    have hpriority := priority_replay hvs vs.totalWeight hlt
    rw [count_totalWeight hvs hlt, sub_self, List.getD_eq_getElem _ _ hi] at hpriority
    rw [hpriority]
    exact (List.getElem_replicate _).symm

theorem priorities_add_totalWeight (hvs : 0 < vs.len) (t : ℕ) :
    (replay vs (t + vs.totalWeight)).1 = (replay vs t).1 := by
  induction t with
  | zero =>
    rw [Nat.zero_add]
    exact priorities_totalWeight hvs
  | succ t ih =>
    have hrounds : t + 1 + vs.totalWeight = (t + vs.totalWeight) + 1 := by omega
    rw [hrounds, replay_succ, replay_succ, ih]

theorem replay_add_totalWeight (hvs : 0 < vs.len) (t : ℕ) :
    replay vs (t + 1 + vs.totalWeight) = replay vs (t + 1) := by
  have hrounds : t + 1 + vs.totalWeight = (t + vs.totalWeight) + 1 := by omega
  rw [hrounds, replay_succ, replay_succ, priorities_add_totalWeight hvs]

/-- In any stretch of as many views as the total weight. -/
theorem count_stretch (hvs : 0 < vs.len) (t : ℕ) {i : ℕ} (hi : i < vs.len) :
    (vs.totalWeight.count fun k => (replay vs (t + k + 1)).2 = i) = vs.weightAt i := by
  have hpos := totalWeight_pos hvs
  have hbefore := priority_replay hvs t hi
  have hafter := priority_replay hvs (t + vs.totalWeight) hi
  rw [priorities_add_totalWeight hvs, hbefore, Nat.count_add] at hafter
  push_cast at hafter
  have hpos' : (0 : ℤ) < vs.totalWeight := by exact_mod_cast hpos
  have hscaled : (vs.totalWeight : ℤ) *
      (vs.totalWeight.count fun k => (replay vs (t + k + 1)).2 = i) =
        vs.totalWeight * vs.weightAt i := by
    linarith
  have hcancel := mul_left_cancel₀ (ne_of_gt hpos') hscaled
  exact_mod_cast hcancel

theorem sum_replay (hvs : 0 < vs.len) (t : ℕ) : (replay vs t).1.sum = 0 := by
  have hlen := length_replay vs t
  have hsum := (balanced_replay hvs t).sum
  rw [← hlen, Finset.sum_range] at hsum
  rw [← Fin.sum_univ_getElem, ← hsum]
  refine Finset.sum_congr rfl fun i _ => ?_
  exact (List.getD_eq_getElem _ _ i.isLt).symm

theorem priority_bounds (hvs : 0 < vs.len) (t : ℕ) :
    ∀ p ∈ (replay vs t).1, -(vs.totalWeight : ℤ) < p ∧
      (p : ℚ) ≤ vs.totalWeight * (harmonic vs.len - 1) := by
  have hlen := length_replay vs t
  have hbal := balanced_replay hvs t
  intro p hp
  obtain ⟨i, hi, rfl⟩ := List.getElem_of_mem hp
  have hmem : i ∈ Finset.range vs.len := Finset.mem_range.mpr (hlen ▸ hi)
  have hlower := hbal.lower i hmem
  have hupper := hbal.upper hmem
  rw [total_weightAt, List.getD_eq_getElem _ _ hi] at hlower
  rw [total_weightAt, Finset.card_range, List.getD_eq_getElem _ _ hi] at hupper
  exact ⟨hlower, hupper⟩

end Proportion

/-- The accumulator, from zero priorities: the priorities add up to zero, each is above minus the
total weight and at most the total weight times `1 / 2 + … + 1 / n`, nothing saturates, every
validator leads as many of any `totalWeight` successive views as its weight says, and the schedule
repeats with that period. -/
theorem leadership_proportional {vs : ValidatorSet} (hvs : vs.members ≠ []) :
    (∀ t, (replay vs t).1.sum = 0 ∧
      (∀ p ∈ (replay vs t).1, -(vs.totalWeight : ℤ) < p ∧
        (p : ℚ) ≤ vs.totalWeight * (harmonic vs.len - 1)) ∧
      Proportion.NoneSaturates vs (replay vs t).1) ∧
    (∀ t, ∀ i < vs.len,
      (vs.totalWeight.count fun k => (replay vs (t + k + 1)).2 = i) = vs.weightAt i) ∧
    (replay vs vs.totalWeight).1 = zeroPriorities vs ∧
      ∀ t, replay vs (t + 1 + vs.totalWeight) = replay vs (t + 1) := by
  have hpos : 0 < vs.len := List.length_pos_of_ne_nil hvs
  refine ⟨fun t => ⟨Proportion.sum_replay hpos t, Proportion.priority_bounds hpos t, ?_⟩,
    fun t i hi => Proportion.count_stretch hpos t hi, Proportion.priorities_totalWeight hpos,
    Proportion.replay_add_totalWeight hpos⟩
  exact Proportion.noneSaturates_of_balanced hpos (length_replay vs t)
    (Proportion.balanced_replay hpos t)

namespace Sample

theorem uneven_proportional :
    (replay unevenValidators 3).1 = [0, 0] ∧
      (Nat.count (fun k => (replay unevenValidators (5 + k + 1)).2 = 0) 3) = 2 := by
  have hvs : unevenValidators.members ≠ [] := by decide
  obtain ⟨-, hcount, hperiod, -⟩ := leadership_proportional hvs
  exact ⟨hperiod, hcount 5 0 (by decide)⟩

/-- Three light validators and two heavy ones, of total weight 25. -/
def twoHeavy : ValidatorSet where
  members := [2, 3, 4, 5, 6]
  weights := [1, 1, 1, 11, 11]
  sorted := by decide
  weights_length := by decide
  weights_ne_zero := by simp
  length_lt := by decide

/-- After 16 views the last validator is behind by more than the total weight. -/
theorem twoHeavy_beyond_total :
    ∃ p ∈ (replay twoHeavy 16).1, (twoHeavy.totalWeight : ℤ) < p := by
  decide +kernel

end Sample

end Boule
