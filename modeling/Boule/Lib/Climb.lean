import Boule.Lib.Lineage

/-! Walks to ancestors that never return to where they were, and the part of such a walk that a
test allows. -/
namespace Boule.Lineage

variable {α : Type} {parent : α → Option α} {rank : α → ℕ} {more : α → Bool} {a b c : α}
  {n lo hi cap : ℕ}

/-- Nothing is an ancestor of itself. -/
def Acyclic (parent : α → Option α) : Prop :=
  ∀ a, ¬ Relation.TransGen (fun x y => parent x = some y) a a

/-- It is enough that ranks fall from what is a parent itself. -/
theorem acyclic_of_rank_lt
    (h : ∀ a b c, parent a = some b → parent b = some c → rank c < rank b) : Acyclic parent := by
  have hlt : ∀ x a b, parent x = some a → Relation.TransGen (fun x y => parent x = some y) a b →
      rank b < rank a := by
    intro x a b hx hab
    induction hab with
    | single hb => exact h x _ _ hx hb
    | tail hab hc ih =>
      obtain ⟨y, -, hy⟩ := Relation.TransGen.tail'_iff.mp hab
      have hstep := h y _ _ hy hc
      omega
  intro a ha
  obtain ⟨y, -, hy⟩ := Relation.TransGen.tail'_iff.mp ha
  have hself := hlt y a a hy ha
  omega

theorem pairwise_transGen_lineage :
    (lineage parent n a).Pairwise (Relation.TransGen fun x y => parent x = some y) :=
  List.isChain_iff_pairwise.mp (isChain_lineage.imp fun _ _ h => .single h)

theorem nodup_lineage (h : Acyclic parent) : (lineage parent n a).Nodup := by
  refine pairwise_transGen_lineage.imp ?_
  intro x y hxy he
  rw [he] at hxy
  exact h y hxy

theorem mem_parents_of_mem_lineage (h : b ∈ lineage parent n a) :
    b = a ∨ ∃ x, parent x = some b := by
  rcases Relation.ReflTransGen.cases_tail (ancestor_of_mem_lineage h) with rfl | ⟨x, -, hx⟩
  · exact .inl rfl
  · exact .inr ⟨x, hx⟩

/-- A walk whose parents are all in a list is at most one longer than the list. -/
theorem length_lineage_le (h : Acyclic parent) {pool : List α}
    (hpool : ∀ x b, parent x = some b → b ∈ pool) :
    (lineage parent n a).length ≤ pool.length + 1 := by
  have hsub : lineage parent n a ⊆ a :: pool := by
    intro b hb
    rcases mem_parents_of_mem_lineage hb with rfl | ⟨x, hx⟩
    · exact List.mem_cons_self ..
    · exact List.mem_cons_of_mem _ (hpool x b hx)
  exact ((nodup_lineage h).subperm hsub).length_le

/-- A walk that ends before its bound has met every ancestor. -/
theorem mem_lineage_of_length_lt (hn : (lineage parent n a).length < n) :
    b ∈ lineage parent n a ↔ Ancestor parent a b := by
  refine ⟨ancestor_of_mem_lineage, fun hb => ?_⟩
  induction n generalizing a with
  | zero => omega
  | succ n ih =>
    rcases hb.cases_head with rfl | ⟨p, hp, hb⟩
    · exact List.mem_cons_self ..
    · rw [lineage_succ_some hp] at hn ⊢
      rw [List.length_cons] at hn
      exact List.mem_cons_of_mem _ (ih (by omega) hb)

/-- A walk that has ended is the same with a higher bound. -/
theorem lineage_succ_of_length_le (hn : (lineage parent (n + 1) a).length ≤ n) :
    lineage parent (n + 1) a = lineage parent n a := by
  induction n generalizing a with
  | zero =>
    rw [lineage, List.length_cons] at hn
    omega
  | succ n ih =>
    cases hp : parent a with
    | none => rw [lineage_succ_none hp, lineage_succ_none hp]
    | some b =>
      rw [lineage_succ_some hp, List.length_cons] at hn
      rw [lineage_succ_some hp, lineage_succ_some hp, ih (by omega)]

/-! ### As far as a test allows -/

/-- The walk up to the first element that fails the test. -/
def climb (parent : α → Option α) (more : α → Bool) (n : ℕ) (a : α) : List α :=
  (lineage parent n a).takeWhile more

theorem climb_succ : climb parent more (n + 1) a =
    if more a then a :: (parent a).elim [] (climb parent more n) else [] := by
  unfold climb
  rw [lineage, List.takeWhile_cons]
  cases parent a <;> rfl

theorem climb_of_not (h : ¬ more a = true) : climb parent more (n + 1) a = [] := by
  rw [climb_succ, if_neg h]

theorem climb_of_none (h : more a = true) (hp : parent a = none) :
    climb parent more (n + 1) a = [a] := by
  rw [climb_succ, if_pos h, hp, Option.elim_none]

theorem climb_of_some (h : more a = true) (hp : parent a = some b) :
    climb parent more (n + 1) a = a :: climb parent more n b := by
  rw [climb_succ, if_pos h, hp, Option.elim_some]

/-- The ancestors that are parents of what is climbed. -/
def reached (parent : α → Option α) (more : α → Bool) (n : ℕ) (a : α) : List α :=
  (climb parent more n a).filterMap parent

theorem reached_of_not (h : ¬ more a = true) : reached parent more (n + 1) a = [] := by
  rw [reached, climb_of_not h, List.filterMap_nil]

theorem reached_of_none (hp : parent a = none) : reached parent more (n + 1) a = [] := by
  by_cases h : more a = true
  · rw [reached, climb_of_none h hp, List.filterMap_cons_none hp, List.filterMap_nil]
  · exact reached_of_not h

theorem reached_of_some (h : more a = true) (hp : parent a = some b) :
    reached parent more (n + 1) a = b :: reached parent more n b := by
  rw [reached, climb_of_some h hp, List.filterMap_cons_some hp, reached]

theorem isPrefix_cons_reached : a :: reached parent more n a <+: lineage parent (n + 1) a := by
  induction n generalizing a with
  | zero => exact List.cons_prefix_cons.mpr ⟨rfl, List.nil_prefix⟩
  | succ n ih =>
    rw [lineage, List.cons_prefix_cons]
    refine ⟨rfl, ?_⟩
    by_cases h : more a = true
    · cases hp : parent a with
      | none =>
        rw [reached_of_none hp]
        exact List.nil_prefix
      | some b =>
        rw [reached_of_some h hp]
        exact ih
    · rw [reached_of_not h]
      exact List.nil_prefix

/-- Each parent above the bound is lower than its child. -/
def FallsAbove (parent : α → Option α) (rank : α → ℕ) (lo : ℕ) (a : α) : Prop :=
  ∀ b, Ancestor parent a b → ∀ c, parent b = some c → lo < rank c → rank c < rank b

/-- The climb is the ancestors above the bound, in falling order. -/
structure IsFall (parent : α → Option α) (rank : α → ℕ) (lo : ℕ) (a : α) (l : List α) :
    Prop where
  mem_iff : ∀ b, b ∈ l ↔ Ancestor parent a b ∧ lo < rank b
  falling : l.Pairwise fun x y => rank y < rank x

theorem FallsAbove.pairwise (h : FallsAbove parent rank lo a) :
    (lineage parent n a).Pairwise fun x y => lo < rank y → rank y < rank x := by
  have : IsTrans α fun x y => lo < rank y → rank y < rank x := by
    constructor
    intro x y z hxy hyz hz
    have hy := hyz hz
    have hx := hxy (by omega)
    omega
  apply List.isChain_iff_pairwise.mp
  have hchain := @isChain_lineage α parent a n
  rw [List.isChain_iff_getElem] at hchain ⊢
  intro i hi
  have hanc := ancestor_of_mem_lineage (List.getElem_mem (i.lt_succ_self.trans hi))
  exact h _ hanc _ (hchain i hi)

theorem isFall_climb (hn : (lineage parent n a).length < n) (h : FallsAbove parent rank lo a) :
    IsFall parent rank lo a (climb parent (fun x => lo < rank x) n a) := by
  have hfilter : (lineage parent n a).filter (fun x => lo < rank x) =
      climb parent (fun x => lo < rank x) n a :=
    filter_eq_takeWhile h.pairwise fun x y hxy hy => by
      have hlo := of_decide_eq_true hy
      have hlt := hxy hlo
      exact decide_eq_true (by omega)
  constructor
  · intro b
    rw [← hfilter, List.mem_filter, mem_lineage_of_length_lt hn, decide_eq_true_iff]
  · have hall := (h.pairwise (n := n)).sublist (List.takeWhile_sublist (lo < rank ·))
    refine hall.imp_of_mem ?_
    intro x y _ hy hxy
    exact hxy (of_decide_eq_true (List.all_eq_true.mp List.all_takeWhile y hy))

/-- Where a climb takes in all that passes the test and falls, parents that pass it fall. -/
theorem rank_lt_of_climb (hacyclic : Acyclic parent)
    (hmem : ∀ b, Ancestor parent a b → more b = true → b ∈ climb parent more n a)
    (hfall : (climb parent more n a).Pairwise fun x y => rank y < rank x) :
    ∀ b, Ancestor parent a b → ∀ c, parent b = some c → more c = true → rank c < rank b := by
  induction n generalizing a with
  | zero =>
    intro b hb c hc hmore
    cases hmem c (hb.tail hc) hmore
  | succ n ih =>
    intro b hb c hc hmore
    have hin := hmem c (hb.tail hc) hmore
    by_cases ha : more a = true
    · have hne : ∀ d, Relation.TransGen (fun x y => parent x = some y) a d → d ≠ a := by
        intro d hd he
        rw [he] at hd
        exact hacyclic a hd
      have hca : c ≠ a := hne c (.tail' hb hc)
      cases hp : parent a with
      | none =>
        rw [climb_of_none ha hp, List.mem_singleton] at hin
        exact absurd hin hca
      | some p =>
        rw [climb_of_some ha hp] at hin hfall
        obtain ⟨hhead, htail⟩ := List.pairwise_cons.mp hfall
        rcases hb.cases_head with rfl | ⟨p', hp', hb⟩
        · exact hhead c ((List.mem_cons.mp hin).resolve_left hca)
        · obtain rfl := Option.some.inj (hp.symm.trans hp')
          have hmem' : ∀ d, Ancestor parent p d → more d = true → d ∈ climb parent more n p := by
            intro d hd hmored
            have hind := hmem d (hd.head hp) hmored
            rw [climb_of_some ha hp] at hind
            exact (List.mem_cons.mp hind).resolve_left (hne d (.head' hp hd))
          exact ih hmem' htail b hb c hc hmore
    · rw [climb_of_not ha] at hin
      cases hin

/-- A climb is what it should be exactly where parents fall. -/
theorem isFall_climb_iff (hacyclic : Acyclic parent) (hn : (lineage parent n a).length < n) :
    IsFall parent rank lo a (climb parent (fun x => lo < rank x) n a) ↔
      FallsAbove parent rank lo a := by
  constructor
  · intro h b hb c hc hlo
    have hmem : ∀ d, Ancestor parent a d → decide (lo < rank d) = true →
        d ∈ climb parent (fun x => lo < rank x) n a :=
      fun d hd hlod => (h.mem_iff d).mpr ⟨hd, of_decide_eq_true hlod⟩
    exact rank_lt_of_climb hacyclic hmem h.falling b hb c hc (decide_eq_true hlo)
  · exact isFall_climb hn

/-! ### Falling lists -/

theorem nodup_ranks {l : List α} (hl : l.Pairwise fun x y => rank y < rank x) :
    (l.map rank).Nodup :=
  List.pairwise_map.mpr (hl.imp fun hlt => hlt.ne')

/-- In a falling list the elements below the `cap` highest ranks come after `cap` others exactly
where there are none or each of the highest ranks has its element. -/
theorem low_come_late_iff {l : List α} (hl : l.Pairwise fun x y => rank y < rank x)
    (hle : ∀ x ∈ l, rank x ≤ hi) :
    (∀ i x, l[i]? = some x → rank x + cap ≤ hi → cap ≤ i) ↔
      (∀ x ∈ l, hi < rank x + cap) ∨ ∀ r ≤ hi, hi < r + cap → ∃ x ∈ l, rank x = r := by
  constructor
  · intro hlate
    by_cases hall : ∀ x ∈ l, hi < rank x + cap
    · exact .inl hall
    · refine .inr fun r hr hcap => ?_
      push Not at hall
      obtain ⟨x, hx, hlow⟩ := hall
      obtain ⟨i, hi', rfl⟩ := List.mem_iff_getElem.mp hx
      have hlen := hlate i _ (List.getElem?_eq_getElem hi') hlow
      have hsub : (l.take cap).map rank ⊆ List.range' (hi + 1 - cap) cap := by
        intro s hs
        obtain ⟨y, hy, rfl⟩ := List.mem_map.mp hs
        obtain ⟨j, hj, rfl⟩ := List.mem_take_iff_getElem.mp hy
        have hjl : j < l.length := by omega
        have hhigh : ¬ rank l[j] + cap ≤ hi := by
          intro hjlow
          have := hlate j _ (List.getElem?_eq_getElem hjl) hjlow
          omega
        have hjle := hle _ (List.getElem_mem hjl)
        rw [List.mem_range'_1]
        omega
      have hnodup := nodup_ranks (hl.sublist (List.take_sublist cap l))
      have hperm : ((l.take cap).map rank).Perm (List.range' (hi + 1 - cap) cap) := by
        refine (hnodup.subperm hsub).perm_of_length_le ?_
        rw [List.length_map, List.length_take, List.length_range']
        omega
      have hmem : r ∈ (l.take cap).map rank := by
        rw [hperm.mem_iff, List.mem_range'_1]
        omega
      obtain ⟨y, hy, hry⟩ := List.mem_map.mp hmem
      exact ⟨y, List.mem_of_mem_take hy, hry⟩
  · rintro (hall | hfull) i x hx hlow
    · have hhigh := hall x (List.mem_of_getElem? hx)
      omega
    · obtain ⟨hil, rfl⟩ := List.getElem?_eq_some_iff.mp hx
      have hsub : List.range' (hi + 1 - cap) cap ⊆ (l.take i).map rank := by
        intro r hr
        rw [List.mem_range'_1] at hr
        obtain ⟨y, hy, rfl⟩ := hfull r (by omega) (by omega)
        obtain ⟨k, hkl, rfl⟩ := List.mem_iff_getElem.mp hy
        have hki : k < i := by
          by_contra hik
          rcases Nat.lt_or_eq_of_le (Nat.le_of_not_lt hik) with hlt | rfl
          · have hfall := List.pairwise_iff_getElem.mp hl i k hil hkl hlt
            omega
          · omega
        exact List.mem_map_of_mem (List.mem_take_iff_getElem.mpr ⟨k, by omega, rfl⟩)
      have hlen := ((List.nodup_range' (s := hi + 1 - cap) (n := cap)).subperm hsub).length_le
      rw [List.length_range', List.length_map, List.length_take] at hlen
      omega

end Boule.Lineage
