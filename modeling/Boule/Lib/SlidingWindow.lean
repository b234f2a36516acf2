import Boule.Lib.Table

/-! Limiters by a sliding window. A table keeps, for every key, the times of its latest hits; old
ones are dropped whenever the table is touched. What counts is the log of all hits. Times need not
come in order: `peak` is the latest one seen. -/
namespace Boule

/-- Younger than the window; a time after `now` counts as `now`. -/
def inWindow (window now t : ℕ) : Bool := now - t < window

theorem inWindow_max (window peak now t : ℕ) :
    inWindow window (max peak now) t = (inWindow window peak t && inWindow window now t) := by
  unfold inWindow
  rw [← Bool.decide_and]
  exact decide_eq_decide.mpr (by omega)

theorem filter_inWindow_max (window peak now : ℕ) (times : List ℕ) :
    times.filter (inWindow window (max peak now)) =
      (times.filter (inWindow window peak)).filter (inWindow window now) := by
  rw [List.filter_filter]
  refine List.filter_congr fun t _ => ?_
  rw [inWindow_max, Bool.and_comm]

section
variable {K : Type} [DecidableEq K]

/-- The times of a key in a log of hits, oldest first. -/
def timesOf (log : List (K × ℕ)) (k : K) : List ℕ := (log.filter fun e => e.1 = k).map Prod.snd

@[simp] theorem timesOf_nil (k : K) : timesOf [] k = [] := rfl

theorem timesOf_append (log log' : List (K × ℕ)) (k : K) :
    timesOf (log ++ log') k = timesOf log k ++ timesOf log' k := by
  unfold timesOf
  rw [List.filter_append, List.map_append]

theorem timesOf_self (k : K) (t : ℕ) : timesOf [(k, t)] k = [t] := by simp [timesOf]

theorem timesOf_other {k k' : K} (h : k' ≠ k) (t : ℕ) : timesOf [(k', t)] k = [] := by
  simp [timesOf, h]

theorem mem_timesOf {log : List (K × ℕ)} {k : K} {t : ℕ} : t ∈ timesOf log k ↔ (k, t) ∈ log := by
  simp [timesOf]

/-- In a log in the order of its times, a key's last one is its latest. -/
theorem exists_getLast?_timesOf {log : List (K × ℕ)} (h : log.Pairwise fun e e' => e.2 ≤ e'.2)
    {k : K} {t : ℕ} (ht : (k, t) ∈ log) :
    ∃ t', (timesOf log k).getLast? = some t' ∧ t ≤ t' := by
  have hmem := mem_timesOf.mpr ht
  have hsorted : (timesOf log k).Pairwise (· ≤ ·) :=
    List.pairwise_map.mpr (h.sublist List.filter_sublist)
  have hne := List.ne_nil_of_mem hmem
  refine ⟨(timesOf log k).getLast hne, List.getLast?_eq_some_getLast hne, ?_⟩
  rw [← List.dropLast_concat_getLast hne] at hmem hsorted
  rcases List.mem_append.mp hmem with hmem | hmem
  · exact (List.pairwise_append.mp hsorted).2.2 t hmem _ List.mem_cons_self
  · exact (List.mem_singleton.mp hmem).le

/-! ### Entries that are dropped -/

theorem Table.get?_retain_of_true {V : Type} {table : Table K V} {keep : K → V → Bool} {k : K}
    {v : V} (hk : table.get? k = some v) (hkeep : keep k v = true) :
    (table.retain keep).get? k = some v :=
  (Table.get?_retain_eq_some _ _ _ _).mpr ⟨hk, hkeep⟩

theorem Table.get?_retain_of_false {V : Type} {table : Table K V} {keep : K → V → Bool} {k : K}
    {v : V} (hk : table.get? k = some v) (hkeep : keep k v = false) :
    (table.retain keep).get? k = none := by
  by_contra hsome
  obtain ⟨v', hv'⟩ := Option.ne_none_iff_exists'.mp hsome
  have hkept := (Table.get?_retain_eq_some _ _ _ _).mp hv'
  have hsame : v = v' := Option.some.inj (hk.symm.trans hkept.1)
  rw [← hsame, hkeep] at hkept
  exact Bool.false_ne_true hkept.2

theorem Table.get?_retain_of_none {V : Type} {table : Table K V} {keep : K → V → Bool} {k : K}
    (hk : table.get? k = none) : (table.retain keep).get? k = none := by
  by_contra hsome
  obtain ⟨v, hv⟩ := Option.ne_none_iff_exists'.mp hsome
  rw [Table.get?_of_retain hv] at hk
  cases hk

/-! ### Many hits for a key -/

/-- The hits of a key that are still counted. -/
def Table.hitsOf (hits : Table K (List ℕ)) (k : K) : List ℕ := (hits.get? k).getD []

/-- A hit, unless the key already has as many as it may have in a window. -/
def Table.hit (window limit : ℕ) (hits : Table K (List ℕ)) (k : K) (now : ℕ) :
    Table K (List ℕ) × Bool :=
  let kept := (hits.hitsOf k).filter (inWindow window now)
  if limit ≤ kept.length then (hits.insert k kept, false)
  else (hits.insert k (kept ++ [now]), true)

/-- Keys without a hit in the window are dropped. -/
def Table.dropIdle (window : ℕ) (hits : Table K (List ℕ)) (now : ℕ) : Table K (List ℕ) :=
  hits.retain fun _ times => times.any (inWindow window now)

theorem Table.hitsOf_dropIdle (window : ℕ) (hits : Table K (List ℕ)) (now : ℕ) (k : K) :
    (hits.dropIdle window now).hitsOf k =
      if (hits.hitsOf k).any (inWindow window now) then hits.hitsOf k else [] := by
  unfold Table.hitsOf
  cases hk : hits.get? k with
  | none => rw [Table.dropIdle, Table.get?_retain_of_none hk]; rfl
  | some times =>
    rw [Option.getD_some]
    cases hany : times.any (inWindow window now) with
    | true => rw [Table.dropIdle, Table.get?_retain_of_true hk hany]; rfl
    | false => rw [Table.dropIdle, Table.get?_retain_of_false hk hany]; rfl

theorem Table.hitsOf_hit (window limit : ℕ) (hits : Table K (List ℕ)) (k : K) (now : ℕ) (k' : K) :
    (hits.hit window limit k now).1.hitsOf k' =
      if k' = k then (hits.hitsOf k).filter (inWindow window now) ++
        (if (hits.hit window limit k now).2 then [now] else []) else hits.hitsOf k' := by
  unfold Table.hit Table.hitsOf
  simp only
  split_ifs <;> simp_all [Table.get?_insert]

theorem Table.hit_eq_true {window limit : ℕ} {hits : Table K (List ℕ)} {k : K} {now : ℕ} :
    (hits.hit window limit k now).2 = true ↔
      ((hits.hitsOf k).filter (inWindow window now)).length < limit := by
  unfold Table.hit
  simp only
  split_ifs with hfull
  · simpa using hfull
  · simpa using hfull

/-- The table misses no hit that still counts, and has none that was not there. -/
structure RemembersHits (window limit : ℕ) (log : List (K × ℕ)) (hits : Table K (List ℕ))
    (peak : ℕ) : Prop where
  true_hits : ∀ k, (hits.hitsOf k).Sublist (timesOf log k)
  kept : ∀ k, ((timesOf log k).filter (inWindow window peak)).Sublist (hits.hitsOf k)
  few : ∀ k, (hits.hitsOf k).length ≤ limit

namespace RemembersHits
variable {window limit peak : ℕ} {log : List (K × ℕ)} {hits : Table K (List ℕ)}

theorem empty (window limit peak : ℕ) : RemembersHits window limit ([] : List (K × ℕ)) ∅ peak where
  true_hits := fun k => by simp [Table.hitsOf]
  kept := fun k => by simp
  few := fun k => by simp [Table.hitsOf]

/-- The hits of a window that ends at the latest time are few, over any run. -/
theorem length_le (h : RemembersHits window limit log hits peak) (k : K) :
    ((timesOf log k).filter (inWindow window peak)).length ≤ limit :=
  (h.kept k).length_le.trans (h.few k)

theorem later (h : RemembersHits window limit log hits peak) (now : ℕ) :
    RemembersHits window limit log hits (max peak now) where
  true_hits := h.true_hits
  kept := by
    intro k
    rw [filter_inWindow_max]
    exact List.filter_sublist.trans (h.kept k)
  few := h.few

/-- What is dropped cannot count again. -/
theorem dropIdle (h : RemembersHits window limit log hits peak) (now : ℕ) :
    RemembersHits window limit log (hits.dropIdle window now) (max peak now) where
  true_hits := by
    intro k
    rw [Table.hitsOf_dropIdle]
    split_ifs with hany
    · exact h.true_hits k
    · exact List.nil_sublist _
  kept := by
    intro k
    have hsub := (h.kept k).filter (inWindow window now)
    rw [filter_inWindow_max, Table.hitsOf_dropIdle]
    split_ifs with hany
    · exact hsub.trans List.filter_sublist
    · have hnone : (hits.hitsOf k).filter (inWindow window now) = [] :=
        List.filter_eq_nil_iff.mpr (List.any_eq_false.mp (Bool.eq_false_of_not_eq_true hany))
      rwa [hnone] at hsub
  few := by
    intro k
    rw [Table.hitsOf_dropIdle]
    split_ifs with hany
    · exact h.few k
    · exact Nat.zero_le _

/-- A hit is let in only when there is room in the window before the latest time. -/
theorem hit_true (h : RemembersHits window limit log hits peak) {k : K} {now : ℕ}
    (hhit : (hits.hit window limit k now).2 = true) :
    ((timesOf log k).filter (inWindow window (max peak now))).length < limit := by
  rw [filter_inWindow_max]
  exact (((h.kept k).filter _).length_le).trans_lt (Table.hit_eq_true.mp hhit)

/-- A hit is refused only when the window before it is full. -/
theorem hit_false (h : RemembersHits window limit log hits peak) {k : K} {now : ℕ}
    (hhit : (hits.hit window limit k now).2 = false) :
    limit ≤ ((timesOf log k).filter (inWindow window now)).length := by
  have hfull : ¬((hits.hitsOf k).filter (inWindow window now)).length < limit := fun hlt =>
    Bool.false_ne_true (hhit.symm.trans (Table.hit_eq_true.mpr hlt))
  exact (Nat.le_of_not_lt hfull).trans ((h.true_hits k).filter _).length_le

/-- The log grows by the hits that are let in. -/
theorem hit (h : RemembersHits window limit log hits peak) (k : K) (now : ℕ) :
    RemembersHits window limit
      (if (hits.hit window limit k now).2 then log ++ [(k, now)] else log)
      (hits.hit window limit k now).1 (max peak now) where
  true_hits := by
    intro k'
    have hold := h.true_hits k'
    rw [Table.hitsOf_hit]
    by_cases hk : k' = k
    · subst hk
      rw [if_pos rfl]
      have hkept : ((hits.hitsOf k').filter (inWindow window now)).Sublist (timesOf log k') :=
        List.filter_sublist.trans hold
      split_ifs
      · rw [timesOf_append, timesOf_self]
        exact hkept.append (List.Sublist.refl _)
      · rwa [List.append_nil]
    · rw [if_neg hk]
      split_ifs
      · rwa [timesOf_append, timesOf_other (Ne.symm hk), List.append_nil]
      · exact hold
  kept := by
    intro k'
    have hold := (h.kept k').filter (inWindow window now)
    rw [Table.hitsOf_hit, filter_inWindow_max]
    by_cases hk : k' = k
    · subst hk
      rw [if_pos rfl]
      split_ifs
      · rw [timesOf_append, timesOf_self, List.filter_append, List.filter_append]
        exact hold.append (List.filter_sublist.trans List.filter_sublist)
      · rwa [List.append_nil]
    · rw [if_neg hk]
      have hother := hold.trans List.filter_sublist
      split_ifs
      · rwa [timesOf_append, timesOf_other (Ne.symm hk), List.append_nil]
      · exact hother
  few := by
    intro k'
    rw [Table.hitsOf_hit]
    by_cases hk : k' = k
    · rw [if_pos hk]
      split_ifs with hhit
      · rw [List.length_append]
        exact Table.hit_eq_true.mp hhit
      · rw [List.append_nil]
        exact (List.length_filter_le _ _).trans (h.few k)
    · rw [if_neg hk]
      exact h.few k'

end RemembersHits

/-! ### The latest hit of a key -/

/-- Keys whose latest hit is old are dropped. -/
def Table.dropOld (window : ℕ) (last : Table K ℕ) (now : ℕ) : Table K ℕ :=
  last.retain fun _ t => inWindow window now t

/-- The table has the latest hit of every key, as long as that one still counts. -/
structure RemembersLast (window : ℕ) (log : List (K × ℕ)) (last : Table K ℕ) (peak : ℕ) :
    Prop where
  true_hits : ∀ k t, last.get? k = some t → (timesOf log k).getLast? = some t
  kept : ∀ k t, (timesOf log k).getLast? = some t → inWindow window peak t = true →
    last.get? k = some t

namespace RemembersLast
variable {window peak : ℕ} {log : List (K × ℕ)} {last : Table K ℕ}

theorem empty (window peak : ℕ) : RemembersLast window ([] : List (K × ℕ)) ∅ peak where
  true_hits := fun k t h => by rw [Table.get?_empty] at h; cases h
  kept := fun k t h _ => by cases h

theorem dropOld (h : RemembersLast window log last peak) (now : ℕ) :
    RemembersLast window log (last.dropOld window now) (max peak now) where
  true_hits := fun k t hk => h.true_hits k t (Table.get?_of_retain hk)
  kept := by
    intro k t hlast hrecent
    rw [inWindow_max, Bool.and_eq_true] at hrecent
    exact Table.get?_retain_of_true (h.kept k t hlast hrecent.1) hrecent.2

theorem later (h : RemembersLast window log last peak) (now : ℕ) :
    RemembersLast window log last (max peak now) where
  true_hits := h.true_hits
  kept := by
    intro k t hlast hrecent
    rw [inWindow_max, Bool.and_eq_true] at hrecent
    exact h.kept k t hlast hrecent.1

theorem insert (h : RemembersLast window log last peak) (k : K) (now : ℕ) :
    RemembersLast window (log ++ [(k, now)]) (last.insert k now) (max peak now) where
  true_hits := by
    intro k' t hk
    rw [Table.get?_insert] at hk
    split_ifs at hk with hkk
    · rw [timesOf_append, hkk, timesOf_self, List.getLast?_concat]
      exact hk
    · rw [timesOf_append, timesOf_other (Ne.symm hkk), List.append_nil]
      exact h.true_hits k' t hk
  kept := by
    intro k' t hlast hrecent
    rw [Table.get?_insert]
    split_ifs with hkk
    · rwa [timesOf_append, hkk, timesOf_self, List.getLast?_concat] at hlast
    · rw [timesOf_append, timesOf_other (Ne.symm hkk), List.append_nil] at hlast
      exact (h.later now).kept k' t hlast hrecent

end RemembersLast

end

end Boule
