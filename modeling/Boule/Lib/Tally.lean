import Boule.Lib.Totals

/-! Counters by key, and the occurrences that they count. -/
namespace Boule.Tally

variable {K C D : Type} [DecidableEq K]

/-- The counter of a key, an empty one if it has none. -/
def counter (zero : C) (t : Table K C) (k : K) : C := (t.get? k).getD zero

/-- The counter of each key is raised in turn; `none` where one cannot be. -/
def addAll (zero : C) (raise : C → Option C) (t : Table K C) (ks : List K) : Option (Table K C) :=
  ks.foldlM (fun t k => (raise (counter zero t k)).map fun c => t.insert k c) t

/-- The counter of each key, if it has one, is lowered in turn. -/
def dropAll (lower : C → C) (t : Table K C) (ks : List K) : Table K C :=
  ks.foldl (fun t k => (t.get? k).elim t fun c => t.insert k (lower c)) t

variable {zero : C} {raise : C → Option C} {lower : C → C} {f : C → ℕ} {g : C → D}
  {t t' : Table K C} {k : K} {ks : List K}

theorem counter_insert (zero : C) (t : Table K C) (k j : K) (c : C) :
    counter zero (t.insert k c) j = if j = k then c else counter zero t j := by
  unfold counter
  rw [Table.get?_insert]
  split_ifs <;> rfl

/-! ### Raising -/

theorem addAll_cons_eq_some :
    addAll zero raise t (k :: ks) = some t' ↔
      ∃ c, raise (counter zero t k) = some c ∧ addAll zero raise (t.insert k c) ks = some t' := by
  unfold addAll
  rw [List.foldlM_cons]
  cases raise (counter zero t k) with
  | none => simp
  | some c => simp

/-- A raised counter counts the occurrences. -/
theorem counter_addAll (hraise : ∀ c c', raise c = some c' → f c' = f c + 1)
    (h : addAll zero raise t ks = some t') (j : K) :
    f (counter zero t' j) = f (counter zero t j) + ks.count j := by
  induction ks generalizing t with
  | nil =>
    have ht : t = t' := Option.some.inj h
    rw [ht, List.count_nil, Nat.add_zero]
  | cons k ks ih =>
    obtain ⟨c, hc, hrest⟩ := addAll_cons_eq_some.mp h
    have hnext := hraise _ _ hc
    rw [ih hrest, counter_insert, List.count_cons]
    by_cases hj : j = k
    · rw [if_pos hj, if_pos (beq_iff_eq.mpr hj.symm), hj]
      omega
    · have hk : ¬ (k == j) = true := fun he => hj (beq_iff_eq.mp he).symm
      rw [if_neg hj, if_neg hk, Nat.add_zero]

/-- What raising does not touch stays. -/
theorem counter_addAll_other (hraise : ∀ c c', raise c = some c' → g c' = g c)
    (h : addAll zero raise t ks = some t') (j : K) :
    g (counter zero t' j) = g (counter zero t j) := by
  induction ks generalizing t with
  | nil =>
    have ht : t = t' := Option.some.inj h
    rw [ht]
  | cons k ks ih =>
    obtain ⟨c, hc, hrest⟩ := addAll_cons_eq_some.mp h
    have hnext := hraise _ _ hc
    rw [ih hrest, counter_insert]
    split_ifs with hj
    · rw [hj, hnext]
    · rfl

/-- Counters can be raised for all keys as long as the counts stay below the bound. -/
theorem addAll_isSome_iff {bound : ℕ} (hraise : ∀ c c', raise c = some c' → f c' = f c + 1)
    (hroom : ∀ c, (raise c).isSome = true ↔ f c + 1 < bound)
    (hsmall : ∀ j, f (counter zero t j) < bound) :
    (addAll zero raise t ks).isSome = true ↔
      ∀ j, f (counter zero t j) + ks.count j < bound := by
  induction ks generalizing t with
  | nil =>
    refine iff_of_true rfl fun j => ?_
    rw [List.count_nil, Nat.add_zero]
    exact hsmall j
  | cons k ks ih =>
    rw [Option.isSome_iff_exists]
    constructor
    · rintro ⟨t', h⟩ j
      obtain ⟨c, hc, hrest⟩ := addAll_cons_eq_some.mp h
      have hfits : f c < bound := by
        rw [hraise _ _ hc]
        exact (hroom _).mp (by rw [hc, Option.isSome_some])
      have hsmall' : ∀ j, f (counter zero (t.insert k c) j) < bound := by
        intro j
        rw [counter_insert]
        split_ifs
        · exact hfits
        · exact hsmall j
      have hall := (ih hsmall').mp (by rw [hrest, Option.isSome_some]) j
      have hcount := counter_addAll hraise h j
      have hcount' := counter_addAll hraise hrest j
      omega
    · intro hall
      have hk := hall k
      rw [List.count_cons_self] at hk
      obtain ⟨c, hc⟩ := Option.isSome_iff_exists.mp ((hroom (counter zero t k)).mpr (by omega))
      have hnext := hraise _ _ hc
      have hall' : ∀ j, f (counter zero (t.insert k c) j) + ks.count j < bound := by
        intro j
        have hj := hall j
        rw [List.count_cons] at hj
        rw [counter_insert]
        split_ifs with he
        · rw [he] at hj ⊢
          rw [if_pos (beq_self_eq_true k)] at hj
          omega
        · omega
      have hsmall' : ∀ j, f (counter zero (t.insert k c) j) < bound := by
        intro j
        have hj := hall' j
        omega
      obtain ⟨t', hrest⟩ := Option.isSome_iff_exists.mp ((ih hsmall').mpr hall')
      exact ⟨t', addAll_cons_eq_some.mpr ⟨c, hc, hrest⟩⟩

/-- What holds of the entries and of every raised counter holds of the entries after. -/
theorem get?_addAll {P : C → Prop} (hraise : ∀ c c', raise c = some c' → P c')
    (h : addAll zero raise t ks = some t') (ht : ∀ j c, t.get? j = some c → P c) {j : K} {c : C}
    (hget : t'.get? j = some c) : P c := by
  induction ks generalizing t with
  | nil =>
    have he : t = t' := Option.some.inj h
    exact ht j c (he ▸ hget)
  | cons k ks ih =>
    obtain ⟨c', hc, hrest⟩ := addAll_cons_eq_some.mp h
    refine ih hrest fun i d hi => ?_
    rw [Table.get?_insert] at hi
    split_ifs at hi
    · rw [← Option.some.inj hi]
      exact hraise _ _ hc
    · exact ht i d hi

/-! ### Lowering -/

theorem counter_elim_insert (hzero : lower zero = zero) (t : Table K C) (k j : K) :
    counter zero ((t.get? k).elim t fun c => t.insert k (lower c)) j =
      if j = k then lower (counter zero t k) else counter zero t j := by
  cases hk : t.get? k with
  | none =>
    have hnone : counter zero t k = zero := by rw [counter, hk, Option.getD_none]
    rw [Option.elim_none, hnone, hzero]
    split_ifs with hj
    · rw [hj, hnone]
    · rfl
  | some c =>
    have hsome : counter zero t k = c := by rw [counter, hk, Option.getD_some]
    rw [Option.elim_some, counter_insert, hsome]

/-- A lowered counter loses the occurrences. -/
theorem counter_dropAll (hzero : lower zero = zero) (hlower : ∀ c, f (lower c) = f c - 1)
    (t : Table K C) (ks : List K) (j : K) :
    f (counter zero (dropAll lower t ks) j) = f (counter zero t j) - ks.count j := by
  unfold dropAll
  induction ks generalizing t with
  | nil => rfl
  | cons k ks ih =>
    rw [List.foldl_cons, ih, counter_elim_insert hzero, List.count_cons]
    by_cases hj : j = k
    · rw [if_pos hj, if_pos (beq_iff_eq.mpr hj.symm), hlower, hj]
      omega
    · have hk : ¬ (k == j) = true := fun he => hj (beq_iff_eq.mp he).symm
      rw [if_neg hj, if_neg hk, Nat.add_zero]

theorem counter_dropAll_other (hzero : lower zero = zero) (hlower : ∀ c, g (lower c) = g c)
    (t : Table K C) (ks : List K) (j : K) :
    g (counter zero (dropAll lower t ks) j) = g (counter zero t j) := by
  unfold dropAll
  induction ks generalizing t with
  | nil => rfl
  | cons k ks ih =>
    rw [List.foldl_cons, ih, counter_elim_insert hzero]
    split_ifs with hj
    · rw [hj, hlower]
    · rfl

/-- Entries that are dropped only when they are empty leave the counters as they are. -/
theorem counter_retain {p : K → C → Bool} (hp : ∀ j c, p j c = false → c = zero) (t : Table K C)
    (j : K) : counter zero (t.retain p) j = counter zero t j := by
  unfold counter
  cases hget : t.get? j with
  | none =>
    cases hretain : (t.retain p).get? j with
    | none => rfl
    | some c =>
      rw [((t.get?_retain_eq_some p j c).mp hretain).1] at hget
      cases hget
  | some c =>
    cases hkeep : p j c with
    | true => rw [(t.get?_retain_eq_some p j c).mpr ⟨hget, hkeep⟩]
    | false =>
      cases hretain : (t.retain p).get? j with
      | none => rw [Option.getD_none, Option.getD_some, hp j c hkeep]
      | some d =>
        obtain ⟨hd, hkeep'⟩ := (t.get?_retain_eq_some p j d).mp hretain
        rw [Option.some.inj (hget.symm.trans hd), hkeep'] at hkeep
        cases hkeep

/-! ### Totals -/

/-- Counters that count the occurrences in a list add up to its length. -/
theorem sumOf_eq_length (hzero : f zero = 0) {xs : List K}
    (h : ∀ j, f (counter zero t j) = xs.count j) : t.sumOf (fun _ c => f c) = xs.length := by
  have hshare : ∀ j, t.share (fun _ c => f c) j = xs.count j := by
    intro j
    rw [← h j]
    unfold Table.share counter
    cases t.get? j with
    | none => rw [Option.elim_none, Option.getD_none, hzero]
    | some c => rw [Option.elim_some, Option.getD_some]
  have hout : ∀ j, j ∉ xs.toFinset → t.share (fun _ c => f c) j = 0 := by
    intro j hj
    rw [hshare, List.count_eq_zero]
    exact fun hmem => hj (List.mem_toFinset.mpr hmem)
  rw [Table.sumOf_eq_sum_of_share hout, ← List.sum_toFinset_count_eq_length]
  exact Finset.sum_congr rfl fun j _ => hshare j

end Boule.Tally
