import Boule.Lib.Tally

/-! Permits that are counted by key: an entry of the table is the number of the permits of its key
that are held, and a key of which none is held has no entry. -/
namespace Boule.Permits

variable {K : Type} [DecidableEq K]

/-- One permit less of a key that has an entry; the last one takes the entry with it. -/
def drop (t : Table K ℕ) (k : K) : Table K ℕ :=
  match t.get? k with
  | none => t
  | some count => if count - 1 = 0 then t.erase k else t.insert k (count - 1)

/-- The table counts the held permits. -/
def Counts (t : Table K ℕ) (held : List K) : Prop :=
  ∀ k, t.get? k = if k ∈ held then some (held.count k) else none

variable {t : Table K ℕ} {held : List K} {k : K}

theorem counts_empty : Counts (∅ : Table K ℕ) [] := by
  intro k
  rw [Table.get?_empty, if_neg List.not_mem_nil]

theorem Counts.perm {held' : List K} (h : Counts t held) (hperm : held.Perm held') :
    Counts t held' := by
  intro k
  rw [h k, hperm.count_eq, if_congr hperm.mem_iff rfl rfl]

theorem Counts.counter_eq (h : Counts t held) (k : K) : Tally.counter 0 t k = held.count k := by
  unfold Tally.counter
  rw [h k]
  split_ifs with hk
  · rfl
  · exact (List.count_eq_zero_of_not_mem hk).symm

theorem Counts.pos (h : Counts t held) {k : K} {count : ℕ} (hget : t.get? k = some count) :
    0 < count := by
  rw [h k] at hget
  split_ifs at hget with hk
  rw [← Option.some.inj hget]
  exact List.count_pos_iff.mpr hk

/-- A permit more. -/
theorem Counts.take (h : Counts t held) (k : K) :
    Counts (t.insert k (Tally.counter 0 t k + 1)) (k :: held) := by
  intro j
  rw [Table.get?_insert, h.counter_eq]
  by_cases hj : j = k
  · rw [if_pos hj, if_pos (by rw [hj]; exact List.mem_cons_self ..), hj, List.count_cons_self]
  · have hne : k ≠ j := fun he => hj he.symm
    rw [if_neg hj, h j, List.count_cons_of_ne hne]
    have hmem : j ∈ k :: held ↔ j ∈ held := by
      rw [List.mem_cons]
      exact or_iff_right hj
    rw [if_congr hmem rfl rfl]

/-- A permit less. -/
theorem Counts.drop (h : Counts t held) (hk : k ∈ held) :
    Counts (Permits.drop t k) (held.erase k) := by
  have hget : t.get? k = some (held.count k) := by rw [h k, if_pos hk]
  have hself : (held.erase k).count k = held.count k - 1 := List.count_erase_self
  have hother : ∀ j, j ≠ k → t.get? j =
      if j ∈ held.erase k then some ((held.erase k).count j) else none := by
    intro j hj
    rw [h j, List.count_erase_of_ne hj]
    exact if_congr (List.mem_erase_of_ne hj).symm rfl rfl
  intro j
  simp only [Permits.drop, hget]
  split_ifs with hlast hin hin
  · have hj : j ≠ k := by
      rintro rfl
      have hpos := List.count_pos_iff.mpr hin
      omega
    rw [Table.get?_erase, if_neg hj, hother j hj, if_pos hin]
  · rw [Table.get?_erase]
    split_ifs with hj
    · rfl
    · rw [hother j hj, if_neg hin]
  · rw [Table.get?_insert]
    split_ifs with hj
    · rw [hj, hself]
    · rw [hother j hj, if_pos hin]
  · have hj : j ≠ k := by
      rintro rfl
      exact hin (List.count_pos_iff.mp (by omega))
    rw [Table.get?_insert, if_neg hj, hother j hj, if_neg hin]

/-- All counts together are the number of the held permits. -/
theorem Counts.sumOf_eq (h : Counts t held) : t.sumOf (fun _ count => count) = held.length := by
  have hshare : ∀ k, t.share (fun _ count => count) k = held.count k := by
    intro k
    unfold Table.share
    rw [h k]
    split_ifs with hk
    · rfl
    · exact (List.count_eq_zero_of_not_mem hk).symm
  have hzero : ∀ k, k ∉ held.toFinset → t.share (fun _ count => count) k = 0 := by
    intro k hk
    rw [hshare, List.count_eq_zero]
    exact fun hin => hk (List.mem_toFinset.mpr hin)
  rw [Table.sumOf_eq_sum_of_share hzero, Finset.sum_congr rfl fun k _ => hshare k]
  exact List.sum_toFinset_count_eq_length held

end Boule.Permits
