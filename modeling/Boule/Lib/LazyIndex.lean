import Boule.Lib.Totals
import Mathlib.Algebra.BigOperators.Ring.Finset

/-! Shares of what is handed out by weight, kept with one index. The index counts what a unit of
weight has got so far, in parts of a unit, and each holder is paid from where it was last paid. -/
namespace Boule.LazyIndex

variable {K : Type} [DecidableEq K] {weight : Table K ℕ} {last : K → ℕ} {index scale : ℕ}

/-- All weight. -/
def total (weight : Table K ℕ) : ℕ := weight.sumOf fun _ w => w

/-- What a holder was not yet paid, in parts. -/
def parts (weight : Table K ℕ) (last : K → ℕ) (index : ℕ) (k : K) : ℕ :=
  ((weight.get? k).getD 0) * (index - last k)

/-- What nobody was paid yet, in parts. -/
def pending (weight : Table K ℕ) (last : K → ℕ) (index : ℕ) : ℕ :=
  weight.sumOf fun k w => w * (index - last k)

theorem share_pending (weight : Table K ℕ) (last : K → ℕ) (index : ℕ) (k : K) :
    weight.share (fun k w => w * (index - last k)) k = parts weight last index k := by
  unfold Table.share parts
  cases weight.get? k with
  | none => rw [Option.elim_none, Option.getD_none, Nat.zero_mul]
  | some w => rw [Option.elim_some, Option.getD_some]

theorem parts_of_paid {k : K} (h : last k = index) : parts weight last index k = 0 := by
  rw [parts, h, Nat.sub_self, Nat.mul_zero]

omit [DecidableEq K] in
/-- The index grows for all weight at once. -/
theorem pending_grow (weight : Table K ℕ) (h : ∀ k, last k ≤ index) (growth : ℕ) :
    pending weight last (index + growth) =
      pending weight last index + total weight * growth := by
  have hsplit : (fun (k : K) (w : ℕ) => w * (index + growth - last k)) =
      fun k w => w * (index - last k) + w * growth := by
    funext k w
    have hk := h k
    have hsub : index + growth - last k = (index - last k) + growth := by omega
    rw [hsub, Nat.mul_add]
  unfold pending total
  rw [hsplit, Table.sumOf_add, Table.sumOf_mul]

/-- A holder that is paid has nothing pending, and the others have what they had. -/
theorem pending_pay (weight : Table K ℕ) {last' : K → ℕ} {k : K} (hk : last' k = index)
    (hrest : ∀ j, j ≠ k → last' j = last j) :
    pending weight last' index + parts weight last index k = pending weight last index := by
  have hshares : ∀ j, j ≠ k → weight.share (fun k w => w * (index - last' k)) j =
      weight.share (fun k w => w * (index - last k)) j := by
    intro j hj
    rw [share_pending, share_pending, parts, parts, hrest j hj]
  have hsum := Table.sumOf_add_share hshares
  rwa [share_pending, share_pending, parts_of_paid hk, Nat.add_zero] at hsum

/-- The weight of a holder that was just paid can change. -/
theorem pending_insert (weight : Table K ℕ) {k : K} (hk : last k = index) (w : ℕ) :
    pending (weight.insert k w) last index = pending weight last index := by
  have hsum := weight.sumOf_insert (f := fun k w => w * (index - last k)) k w
  rw [share_pending, parts_of_paid hk, hk, Nat.sub_self, Nat.mul_zero] at hsum
  exact hsum

/-- The whole units of some holders are no more than what is pending. -/
theorem sum_units_le (weight : Table K ℕ) (last : K → ℕ) (index scale : ℕ) (holders : Finset K) :
    scale * ∑ k ∈ holders, parts weight last index k / scale ≤ pending weight last index :=
  calc scale * ∑ k ∈ holders, parts weight last index k / scale
      = ∑ k ∈ holders, scale * (parts weight last index k / scale) := Finset.mul_sum ..
    _ ≤ ∑ k ∈ holders, parts weight last index k :=
        Finset.sum_le_sum fun _ _ => Nat.mul_div_le _ scale
    _ = ∑ k ∈ holders, weight.share (fun k w => w * (index - last k)) k :=
        Finset.sum_congr rfl fun k _ => (share_pending weight last index k).symm
    _ ≤ pending weight last index := weight.sum_share_le_sumOf holders

/-- Each of the holders has less than one unit pending beside its whole units. -/
theorem pending_le_units (last : K → ℕ) (index : ℕ) (hscale : 0 < scale) {holders : Finset K}
    (h : ∀ k, k ∉ holders → (weight.get? k).getD 0 = 0) : pending weight last index ≤
      scale * ∑ k ∈ holders, parts weight last index k / scale +
        (scale - 1) * holders.card := by
  have hcover : pending weight last index = ∑ k ∈ holders, parts weight last index k := by
    have hshares : ∀ k, k ∉ holders →
        weight.share (fun k w => w * (index - last k)) k = 0 := by
      intro k hk
      rw [share_pending, parts, h k hk, Nat.zero_mul]
    rw [pending, Table.sumOf_eq_sum_of_share hshares]
    exact Finset.sum_congr rfl fun k _ => share_pending weight last index k
  have hone : ∀ k, parts weight last index k ≤
      scale * (parts weight last index k / scale) + (scale - 1) := by
    intro k
    have hdiv := Nat.div_add_mod (parts weight last index k) scale
    have hmod := Nat.mod_lt (parts weight last index k) hscale
    omega
  calc pending weight last index
      = ∑ k ∈ holders, parts weight last index k := hcover
    _ ≤ ∑ k ∈ holders, (scale * (parts weight last index k / scale) + (scale - 1)) :=
        Finset.sum_le_sum fun k _ => hone k
    _ = scale * ∑ k ∈ holders, parts weight last index k / scale +
          (scale - 1) * holders.card := by
        rw [Finset.sum_add_distrib, ← Finset.mul_sum, Finset.sum_const_nat fun _ _ => rfl,
          Nat.mul_comm holders.card]

end Boule.LazyIndex
