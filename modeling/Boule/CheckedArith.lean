import Boule.Basic

/-! Plain arithmetic on machine integers; `none` stands for an overflow. -/
namespace Boule

def checkedAddU32 (a b : ℕ) : Option ℕ := if a + b < 2 ^ 32 then some (a + b) else none

def checkedMulU64 (a b : ℕ) : Option ℕ := if a * b < 2 ^ 64 then some (a * b) else none

def checkedAddU128 (a b : ℕ) : Option ℕ := if a + b < 2 ^ 128 then some (a + b) else none

def checkedMulU128 (a b : ℕ) : Option ℕ := if a * b < 2 ^ 128 then some (a * b) else none

/-- `Iterator::sum` of `u64`s; `none` stands for an overflow. -/
def sumU64 (xs : List ℕ) : Option ℕ := xs.foldlM checkedAddU64 0

theorem sumU64_eq (xs : List ℕ) : sumU64 xs = if xs.sum < 2 ^ 64 then some xs.sum else none := by
  have hloop : ∀ a < 2 ^ 64, xs.foldlM checkedAddU64 a =
      if a + xs.sum < 2 ^ 64 then some (a + xs.sum) else none := by
    induction xs with
    | nil =>
      intro a ha
      rw [List.sum_nil, Nat.add_zero, if_pos ha]
      rfl
    | cons x xs ih =>
      intro a ha
      rw [List.foldlM_cons, List.sum_cons, ← Nat.add_assoc]
      by_cases hfit : a + x < 2 ^ 64
      · have hstep : checkedAddU64 a x = some (a + x) := if_pos hfit
        rw [hstep]
        exact ih (a + x) hfit
      · have hstep : checkedAddU64 a x = none := if_neg hfit
        rw [hstep, if_neg (by omega)]
        rfl
  have hzero := hloop 0 (by omega)
  rwa [Nat.zero_add] at hzero

theorem sumU64_eq_some_sum {xs : List ℕ} : sumU64 xs = some xs.sum ↔ xs.sum < 2 ^ 64 := by
  rw [sumU64_eq]
  split_ifs with h
  · exact iff_of_true rfl h
  · exact iff_of_false (fun h => by cases h) h

end Boule
