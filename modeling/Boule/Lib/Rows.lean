import Boule.Lib.Table
import Mathlib.Data.List.Destutter
import Mathlib.Data.List.Sort
import Mathlib.Data.List.TakeWhile

/-! Rows with increasing numbers as keys. -/
namespace Boule.Rows

variable {V : Type} {l l' : List (ℕ × V)}

def Increasing (l : List (ℕ × V)) : Prop := l.Pairwise fun a b => a.1 < b.1

theorem increasing_append : Increasing (l ++ l') ↔
    Increasing l ∧ Increasing l' ∧ ∀ a ∈ l, ∀ b ∈ l', a.1 < b.1 :=
  List.pairwise_append

theorem Increasing.filter (h : Increasing l) (p : ℕ × V → Bool) : Increasing (l.filter p) :=
  List.Pairwise.filter p h

theorem Increasing.insertionSort_eq (h : Increasing l) :
    l.insertionSort (fun a b => a.1 ≤ b.1) = l := by
  have hle : l.Pairwise fun a b => a.1 ≤ b.1 := List.Pairwise.imp Nat.le_of_lt h
  exact hle.insertionSort_eq

theorem Increasing.destutter_eq (h : Increasing l) :
    l.destutter (fun a b => a.1 ≠ b.1) = l := by
  apply List.destutter_of_isChain
  exact (List.Pairwise.imp Nat.ne_of_lt h).isChain

/-- What `partition_point` cuts off is what is below the bound. -/
theorem Increasing.drop_takeWhile (h : Increasing l) (n : ℕ) :
    l.drop (l.takeWhile fun e => e.1 < n).length = l.filter fun e => n ≤ e.1 := by
  induction l with
  | nil => rfl
  | cons e l ih =>
    obtain ⟨hfirst, hrest⟩ := List.pairwise_cons.mp h
    by_cases hlt : e.1 < n
    · have htake : (e :: l).takeWhile (fun e => e.1 < n) = e :: l.takeWhile fun e => e.1 < n := by
        rw [List.takeWhile_cons, if_pos (decide_eq_true hlt)]
      have hfilter : (e :: l).filter (fun e => n ≤ e.1) = l.filter fun e => n ≤ e.1 := by
        rw [List.filter_cons, if_neg (by simpa using hlt)]
      rw [htake, hfilter, List.length_cons, List.drop_succ_cons, ih hrest]
    · have hall : (e :: l).filter (fun e => n ≤ e.1) = e :: l := by
        rw [List.filter_eq_self]
        intro x hx
        apply decide_eq_true
        rcases List.mem_cons.mp hx with rfl | hx
        · omega
        · have hx := hfirst x hx
          omega
      have htake : (e :: l).takeWhile (fun e => e.1 < n) = [] := by
        rw [List.takeWhile_cons, if_neg (by simpa using hlt)]
      rw [htake, hall, List.length_nil, List.drop_zero]

/-- The rows of a table in the order of their keys are the increasing list of its entries. -/
theorem Increasing.scan_eq {t : Table ℕ V} (h : Increasing l)
    (hmem : ∀ n v, (n, v) ∈ l ↔ t.get? n = some v) (p : ℕ × V → Bool) :
    (t.toList.filter p).insertionSort (fun a b => a.1 ≤ b.1) = l.filter p := by
  have hsorted : ((t.toList.filter p).insertionSort fun a b => a.1 ≤ b.1).Pairwise
      fun a b => a.1 ≤ b.1 := List.pairwise_insertionSort _ _
  have hperm := (t.toList.filter p).perm_insertionSort fun a b => a.1 ≤ b.1
  have hdistinct : ((t.toList.filter p).insertionSort fun a b => a.1 ≤ b.1).Pairwise
      fun a b => a.1 ≠ b.1 := by
    have hall : t.toList.Pairwise fun a b => a.1 ≠ b.1 := List.pairwise_map.mp t.nodup_toList
    exact hperm.symm.pairwise (List.Pairwise.filter p hall) fun hab => hab.symm
  have hincreasing : Increasing ((t.toList.filter p).insertionSort fun a b => a.1 ≤ b.1) :=
    (hsorted.and hdistinct).imp fun hab => Nat.lt_of_le_of_ne hab.1 hab.2
  apply eq_of_keys_lt hincreasing (h.filter p)
  rintro ⟨n, v⟩
  rw [hperm.mem_iff, List.mem_filter, List.mem_filter, t.mem_toList, hmem]

end Boule.Rows
