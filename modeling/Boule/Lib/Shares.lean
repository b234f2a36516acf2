import Mathlib.Algebra.BigOperators.Group.Finset.Basic
import Mathlib.Algebra.BigOperators.Ring.Finset
import Mathlib.Algebra.Order.BigOperators.Group.Finset
import Mathlib.Data.Nat.Count
import Mathlib.Data.Rat.Cast.Order
import Mathlib.NumberTheory.Harmonic.Defs
import Mathlib.Tactic.FieldSimp
import Mathlib.Tactic.Linarith
import Mathlib.Tactic.Positivity
import Mathlib.Tactic.Ring

/-! Smooth weighted shares. In each round every participant gains its weight, one that is then
the most behind has its turn and pays the total weight. -/
namespace Boule.Shares
open scoped BigOperators

variable {ι : Type} (s : Finset ι) (w : ι → ℕ)

def total : ℕ := ∑ i ∈ s, w i

variable [DecidableEq ι] in
/-- One round, in which `b` has its turn. -/
structure Round (p p' : ι → ℤ) (b : ι) : Prop where
  mem : b ∈ s
  most : ∀ i ∈ s, p i + w i ≤ p b + w b
  next : ∀ i ∈ s, p' i = p i + w i - if i = b then (total s w : ℤ) else 0

/-- The priorities are in balance. Any `k` of `n` participants are together behind by at most
`k` times the total weight, times `1 / (k + 1) + … + 1 / n`. -/
structure Balanced (p : ι → ℤ) : Prop where
  sum : ∑ i ∈ s, p i = 0
  lower : ∀ i ∈ s, -(total s w : ℤ) < p i
  behind : ∀ A ⊆ s, (∑ i ∈ A, (p i : ℚ)) ≤
    A.card * total s w * (harmonic s.card - harmonic A.card)

variable {s w} {p p' : ι → ℤ} {b : ι}

theorem harmonic_mono {m n : ℕ} (h : m ≤ n) : harmonic m ≤ harmonic n := by
  induction n, h using Nat.le_induction with
  | base => exact le_refl _
  | succ n _ ih =>
    rw [harmonic_succ]
    have hpos : (0 : ℚ) ≤ ((n + 1 : ℕ) : ℚ)⁻¹ := by positivity
    linarith

theorem harmonic_one : harmonic 1 = 1 := by
  rw [harmonic_succ, harmonic_zero]
  norm_num

theorem harmonic_le {n : ℕ} (h : 1 ≤ n) : harmonic n ≤ (n + 1) / 2 := by
  induction n, h using Nat.le_induction with
  | base =>
    rw [harmonic_one]
    norm_num
  | succ n hn ih =>
    rw [harmonic_succ]
    have hle : ((n + 1 : ℕ) : ℚ)⁻¹ ≤ 1 / 2 := by
      rw [one_div]
      apply inv_anti₀ (by norm_num)
      exact_mod_cast Nat.succ_le_succ hn
    push_cast at hle ⊢
    linarith

theorem balanced_zero (hpos : 0 < total s w) : Balanced s w fun _ => 0 where
  sum := by simp
  lower := fun i _ => by
    have hpos' : (0 : ℤ) < total s w := by exact_mod_cast hpos
    omega
  behind := by
    intro A hA
    have hle := harmonic_mono (Finset.card_le_card hA)
    have hnonneg : (0 : ℚ) ≤ harmonic s.card - harmonic A.card := by linarith
    simp only [Int.cast_zero, Finset.sum_const_zero]
    positivity

theorem sum_raised (p : ι → ℤ) : ∑ i ∈ s, (p i + w i) = (∑ i ∈ s, p i) + total s w := by
  rw [Finset.sum_add_distrib, total, Nat.cast_sum]

theorem sum_weights_le {A : Finset ι} (hA : A ⊆ s) : (∑ i ∈ A, (w i : ℚ)) ≤ total s w := by
  have hle : ∑ i ∈ A, w i ≤ total s w := Finset.sum_le_sum_of_subset hA
  rw [← Nat.cast_sum]
  exact_mod_cast hle

variable [DecidableEq ι]

section round
variable (hr : Round s w p p' b)
include hr

theorem Round.sum_eq : ∑ i ∈ s, p' i = ∑ i ∈ s, p i := by
  have hnext : ∑ i ∈ s, p' i =
      ∑ i ∈ s, (p i + w i - if i = b then (total s w : ℤ) else 0) :=
    Finset.sum_congr rfl hr.next
  rw [hnext, Finset.sum_sub_distrib, sum_raised, Finset.sum_ite_eq' s b, if_pos hr.mem]
  ring

/-- Whoever has the turn is ahead of its share by less than the total weight. -/
theorem Round.raised_pos (h : ∑ i ∈ s, p i = 0) (hpos : 0 < total s w) : 0 < p b + w b := by
  by_contra hneg
  have hle : ∑ i ∈ s, (p i + (w i : ℤ)) ≤ ∑ _i ∈ s, (0 : ℤ) :=
    Finset.sum_le_sum fun i hi => (hr.most i hi).trans (not_lt.mp hneg)
  rw [sum_raised, h, Finset.sum_const_zero, zero_add] at hle
  have hpos' : (0 : ℤ) < total s w := by exact_mod_cast hpos
  omega

theorem Round.lower (h : Balanced s w p) (hpos : 0 < total s w) :
    ∀ i ∈ s, -(total s w : ℤ) < p' i := by
  intro i hi
  have hold := h.lower i hi
  have hraised := hr.raised_pos h.sum hpos
  rw [hr.next i hi]
  by_cases hib : i = b
  · subst hib
    rw [if_pos rfl]
    omega
  · rw [if_neg hib]
    omega

/-- Participants without the turn gain at most what their share with the leader allows. -/
theorem Round.behind_of_notMem (h : Balanced s w p) {A : Finset ι} (hA : A ⊆ s) (hb : b ∉ A) :
    (∑ i ∈ A, (p' i : ℚ)) ≤ A.card * total s w * (harmonic s.card - harmonic A.card) := by
  have hsub : insert b A ⊆ s := Finset.insert_subset hr.mem hA
  have hold := h.behind (insert b A) hsub
  have hweights := sum_weights_le (w := w) hsub
  rw [Finset.card_insert_of_notMem hb, harmonic_succ] at hold
  rw [Finset.sum_insert hb] at hold hweights
  have hnext : ∑ i ∈ A, (p' i : ℚ) = ∑ i ∈ A, ((p i : ℚ) + w i) := by
    refine Finset.sum_congr rfl fun i hi => ?_
    have hne : i ≠ b := fun hib => hb (hib ▸ hi)
    rw [hr.next i (hA hi), if_neg hne]
    push_cast
    ring
  have hmost : ∑ i ∈ A, ((p i : ℚ) + w i) ≤ A.card * (p b + w b) := by
    have hle := Finset.sum_le_card_nsmul A (fun i => (p i : ℚ) + w i) (p b + w b) fun i hi => by
      exact_mod_cast hr.most i (hA hi)
    rwa [nsmul_eq_mul] at hle
  rw [Finset.sum_add_distrib] at hmost hnext
  rw [hnext]
  set k : ℚ := (A.card : ℚ) with hk
  set W : ℚ := (total s w : ℚ) with hW
  set H : ℚ := harmonic s.card - harmonic A.card with hH
  have hk0 : 0 ≤ k := by positivity
  have hk1 : (0 : ℚ) < k + 1 := by linarith
  have hcard : ((A.card + 1 : ℕ) : ℚ) = k + 1 := by push_cast; rfl
  rw [hcard] at hold
  have hsplit : (k + 1) * W * (harmonic s.card - (harmonic A.card + (k + 1)⁻¹)) =
      (k + 1) * W * H - W := by
    rw [hH]
    field_simp
    ring
  rw [hsplit] at hold
  -- the sum with the leader, and the leader is the largest of them
  have hwith : (p b : ℚ) + w b + (∑ i ∈ A, (p i : ℚ) + ∑ i ∈ A, (w i : ℚ)) ≤ (k + 1) * W * H := by
    linarith
  have hscaled : (k + 1) * (∑ i ∈ A, (p i : ℚ) + ∑ i ∈ A, (w i : ℚ)) ≤ k * ((k + 1) * W * H) := by
    nlinarith
  have hfactor : k * ((k + 1) * W * H) = (k + 1) * (k * W * H) := by ring
  rw [hfactor] at hscaled
  exact le_of_mul_le_mul_left hscaled hk1

theorem Round.behind_of_mem (h : Balanced s w p) {A : Finset ι} (hA : A ⊆ s) (hb : b ∈ A) :
    (∑ i ∈ A, (p' i : ℚ)) ≤ A.card * total s w * (harmonic s.card - harmonic A.card) := by
  have hweights := sum_weights_le (w := w) hA
  have hnext : ∑ i ∈ A, (p' i : ℚ) =
      (∑ i ∈ A, (p i : ℚ) + ∑ i ∈ A, (w i : ℚ)) - total s w := by
    have heach : ∀ i ∈ A, (p' i : ℚ) =
        ((p i : ℚ) + w i) - if i = b then (total s w : ℚ) else 0 := by
      intro i hi
      rw [hr.next i (hA hi)]
      split_ifs <;> push_cast <;> ring
    rw [Finset.sum_congr rfl heach, Finset.sum_sub_distrib, Finset.sum_add_distrib,
      Finset.sum_ite_eq' A b, if_pos hb]
  have hold := h.behind A hA
  rw [hnext]
  linarith

theorem Round.balanced (h : Balanced s w p) (hpos : 0 < total s w) : Balanced s w p' where
  sum := hr.sum_eq.trans h.sum
  lower := hr.lower h hpos
  behind := fun A hA => by
    by_cases hb : b ∈ A
    · exact hr.behind_of_mem h hA hb
    · exact hr.behind_of_notMem h hA hb

end round

omit [DecidableEq ι] in
/-- One participant is behind by at most the total weight times `1 / 2 + … + 1 / n`. -/
theorem Balanced.upper (h : Balanced s w p) {i : ι} (hi : i ∈ s) :
    (p i : ℚ) ≤ total s w * (harmonic s.card - 1) := by
  have hsingle := h.behind {i} (Finset.singleton_subset_iff.mpr hi)
  rw [Finset.sum_singleton, Finset.card_singleton, harmonic_one] at hsingle
  push_cast at hsingle
  linarith

/-! ### Turns over many rounds -/

section rounds
variable {q : ℕ → ι → ℤ} {turn : ℕ → ι}

/-- The priorities are the weights of all rounds less what the turns have cost. -/
theorem priority_eq (hq : ∀ t, Round s w (q t) (q (t + 1)) (turn t)) (h0 : ∀ i ∈ s, q 0 i = 0)
    (t : ℕ) : ∀ i ∈ s, q t i = t * w i - total s w * t.count fun k => turn k = i := by
  induction t with
  | zero => simpa using h0
  | succ t ih =>
    intro i hi
    rw [(hq t).next i hi, ih i hi, Nat.count_succ]
    by_cases hturn : turn t = i
    · rw [if_pos hturn, if_pos hturn.symm]
      push_cast
      ring
    · rw [if_neg hturn, if_neg fun h => hturn h.symm]
      push_cast
      ring

theorem sum_count (hq : ∀ t, turn t ∈ s) (t : ℕ) :
    ∑ i ∈ s, t.count (fun k => turn k = i) = t := by
  induction t with
  | zero => simp
  | succ t ih =>
    simp only [Nat.count_succ]
    rw [Finset.sum_add_distrib, ih, Finset.sum_ite_eq s (turn t), if_pos (hq t)]

/-- In as many rounds as the total weight everyone has as many turns as its weight. -/
theorem count_total (hq : ∀ t, Round s w (q t) (q (t + 1)) (turn t)) (h0 : ∀ i ∈ s, q 0 i = 0)
    (hpos : 0 < total s w) (hbal : Balanced s w (q (total s w))) :
    ∀ i ∈ s, (total s w).count (fun k => turn k = i) = w i := by
  have hle : ∀ i ∈ s, (total s w).count (fun k => turn k = i) ≤ w i := by
    intro i hi
    have hlower := hbal.lower i hi
    rw [priority_eq hq h0 _ i hi] at hlower
    have hpos' : (0 : ℤ) < total s w := by exact_mod_cast hpos
    have hlt : (total s w : ℤ) * ((total s w).count fun k => turn k = i) <
        total s w * (w i + 1) := by linarith
    have hcount := lt_of_mul_lt_mul_left hlt (le_of_lt hpos')
    exact_mod_cast Int.lt_add_one_iff.mp hcount
  have hsum := sum_count (fun t => (hq t).mem) (total s w)
  exact (Finset.sum_eq_sum_iff_of_le hle).mp hsum

end rounds

end Boule.Shares
