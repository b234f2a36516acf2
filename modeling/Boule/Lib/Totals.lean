import Boule.Lib.Table
import Mathlib.Algebra.BigOperators.Group.Finset.Basic
import Mathlib.Algebra.BigOperators.Ring.List
import Mathlib.Algebra.Ring.Nat
import Mathlib.Algebra.Order.BigOperators.Group.Finset

/-! Sums over the entries of a table. -/
namespace Boule.Table

variable {K V W : Type} [DecidableEq K] {f : K → V → ℕ}

/-- What an entry, or the lack of one, contributes to a sum. -/
def share (f : K → V → ℕ) (t : Table K V) (k : K) : ℕ := (t.get? k).elim 0 (f k)

/-- The sum over all entries. -/
def sumOf (f : K → V → ℕ) (t : Table K V) : ℕ := (t.toList.map fun e => f e.1 e.2).sum

omit [DecidableEq K] in
@[simp] theorem sumOf_empty : sumOf f (∅ : Table K V) = 0 := rfl

/-- The keys of a table. -/
def keySet (t : Table K V) : Finset K := (t.toList.map Prod.fst).toFinset

theorem mem_keySet {t : Table K V} {k : K} {v : V} (h : t.get? k = some v) : k ∈ t.keySet :=
  List.mem_toFinset.mpr (List.mem_map.mpr ⟨(k, v), (t.mem_toList k v).mpr h, rfl⟩)

/-- A sum is one over any finite set that has all keys. -/
theorem sumOf_eq_sum {t : Table K V} {s : Finset K} (h : ∀ k v, t.get? k = some v → k ∈ s) :
    t.sumOf f = ∑ k ∈ s, t.share f k := by
  have hsub : t.keySet ⊆ s := by
    intro k hk
    obtain ⟨⟨k, v⟩, he, rfl⟩ := List.mem_map.mp (List.mem_toFinset.mp hk)
    exact h k v ((t.mem_toList k v).mp he)
  have hzero : ∀ k ∈ s, k ∉ t.keySet → t.share f k = 0 := by
    intro k _ hk
    cases hget : t.get? k with
    | none => rw [share, hget, Option.elim_none]
    | some v => exact absurd (mem_keySet hget) hk
  have hlist : ∑ k ∈ t.keySet, t.share f k = ((t.toList.map Prod.fst).map (t.share f)).sum :=
    List.sum_toFinset _ t.nodup_toList
  rw [← Finset.sum_subset hsub hzero, hlist, List.map_map, sumOf]
  congr 1
  apply List.map_congr_left
  rintro ⟨k, v⟩ he
  rw [Function.comp_apply, share, (t.mem_toList k v).mp he, Option.elim_some]

/-- A sum is one over any finite set that has all keys with a share. -/
theorem sumOf_eq_sum_of_share {t : Table K V} {s : Finset K} (h : ∀ k, k ∉ s → t.share f k = 0) :
    t.sumOf f = ∑ k ∈ s, t.share f k := by
  have hall := t.sumOf_eq_sum (f := f) fun k v hget =>
    Finset.mem_union_right s (mem_keySet hget)
  rw [hall]
  exact (Finset.sum_subset Finset.subset_union_left fun k _ hk => h k hk).symm

/-- Some of the shares are at most the sum. -/
theorem sum_share_le_sumOf (t : Table K V) (s : Finset K) :
    ∑ k ∈ s, t.share f k ≤ t.sumOf f := by
  have hall := t.sumOf_eq_sum (f := f) fun k v hget =>
    Finset.mem_union_right s (mem_keySet hget)
  rw [hall]
  exact Finset.sum_le_sum_of_subset Finset.subset_union_left

/-- Sums agree when the shares do. -/
theorem sumOf_congr {t : Table K V} {t' : Table K W} {g : K → W → ℕ}
    (h : ∀ k, t.share f k = t'.share g k) : t.sumOf f = t'.sumOf g := by
  have hl := t.sumOf_eq_sum (f := f) fun k v hget =>
    Finset.mem_union_left t'.keySet (mem_keySet hget)
  have hr := t'.sumOf_eq_sum (f := g) fun k v hget =>
    Finset.mem_union_right t.keySet (mem_keySet hget)
  rw [hl, hr]
  exact Finset.sum_congr rfl fun k _ => h k

theorem sumOf_eq_zero {t : Table K V} (h : ∀ k, t.share f k = 0) : t.sumOf f = 0 :=
  calc t.sumOf f = (∅ : Table K V).sumOf f := sumOf_congr fun k => by
        rw [h k, share, get?_empty, Option.elim_none]
    _ = 0 := sumOf_empty

theorem share_insert (t : Table K V) (k k' : K) (v : V) :
    share f (t.insert k v) k' = if k' = k then f k v else t.share f k' := by
  unfold share
  rw [get?_insert]
  split_ifs with h
  · rw [h, Option.elim_some]
  · rfl

theorem share_erase (t : Table K V) (k k' : K) :
    share f (t.erase k) k' = if k' = k then 0 else t.share f k' := by
  unfold share
  rw [get?_erase]
  split_ifs <;> rfl

/-- Two sums that differ in one share. -/
theorem sumOf_add_share {t : Table K V} {t' : Table K W} {g : K → W → ℕ} {k : K}
    (h : ∀ k', k' ≠ k → t'.share g k' = t.share f k') :
    t'.sumOf g + t.share f k = t.sumOf f + t'.share g k := by
  have hself := Finset.mem_insert_self k (t.keySet ∪ t'.keySet)
  have hl := t.sumOf_eq_sum (f := f) fun k' v hget =>
    Finset.mem_insert_of_mem (b := k) (Finset.mem_union_left t'.keySet (mem_keySet hget))
  have hr := t'.sumOf_eq_sum (f := g) fun k' v hget =>
    Finset.mem_insert_of_mem (b := k) (Finset.mem_union_right t.keySet (mem_keySet hget))
  have hrest : ∑ k' ∈ (insert k (t.keySet ∪ t'.keySet)).erase k, t'.share g k' =
      ∑ k' ∈ (insert k (t.keySet ∪ t'.keySet)).erase k, t.share f k' :=
    Finset.sum_congr rfl fun k' hk' => h k' (Finset.ne_of_mem_erase hk')
  rw [hl, hr, ← Finset.add_sum_erase _ _ hself, ← Finset.add_sum_erase _ _ hself, hrest]
  omega

theorem sumOf_insert (t : Table K V) (k : K) (v : V) :
    sumOf f (t.insert k v) + t.share f k = t.sumOf f + f k v := by
  have hshares : ∀ k', k' ≠ k → share f (t.insert k v) k' = t.share f k' := by
    intro k' hne
    rw [share_insert, if_neg hne]
  rw [sumOf_add_share hshares, share_insert, if_pos rfl]

theorem sumOf_erase (t : Table K V) (k : K) :
    sumOf f (t.erase k) + t.share f k = t.sumOf f := by
  have hshares : ∀ k', k' ≠ k → share f (t.erase k) k' = t.share f k' := by
    intro k' hne
    rw [share_erase, if_neg hne]
  rw [sumOf_add_share hshares, share_erase, if_pos rfl, Nat.add_zero]

/-- An entry is part of the sum. -/
theorem share_le_sumOf (t : Table K V) (k : K) : t.share f k ≤ t.sumOf f := by
  have h := t.sumOf_erase (f := f) k
  omega

omit [DecidableEq K] in
theorem sumOf_add (f g : K → V → ℕ) (t : Table K V) :
    t.sumOf (fun k v => f k v + g k v) = t.sumOf f + t.sumOf g :=
  List.sum_map_add

omit [DecidableEq K] in
theorem sumOf_mul (f : K → V → ℕ) (t : Table K V) (a : ℕ) :
    t.sumOf (fun k v => f k v * a) = t.sumOf f * a :=
  List.sum_map_mul_right t.toList (fun e => f e.1 e.2) a

end Boule.Table
