import Mathlib.Data.List.Sort
import Mathlib.Data.Set.Card

/-! Lists put together from several sources: one element for each key, in the order of the ranks,
and cut off. -/
namespace Boule.Merged

variable {α κ : Type} {rank : α → ℕ} {l : List α} {a c : α} {k r : ℕ}

section
variable [DecidableEq κ] {key : α → κ} {seen : List κ} {p : α → Bool}

/-- The elements whose key is not among the seen ones, the first of each key. -/
def distinctBy (key : α → κ) : List κ → List α → List α
  | _, [] => []
  | seen, a :: l =>
    if key a ∈ seen then distinctBy key seen l else a :: distinctBy key (key a :: seen) l

theorem distinctBy_sublist : (distinctBy key seen l).Sublist l := by
  induction l generalizing seen with
  | nil => exact .slnil
  | cons a l ih =>
    rw [distinctBy]
    split_ifs
    · exact ih.cons a
    · exact ih.cons_cons a

theorem mem_map_distinctBy {x : κ} :
    x ∈ (distinctBy key seen l).map key ↔ x ∈ l.map key ∧ x ∉ seen := by
  induction l generalizing seen with
  | nil => simp [distinctBy]
  | cons a l ih =>
    rw [distinctBy]
    split_ifs with hseen
    · rw [ih, List.map_cons, List.mem_cons]
      constructor
      · exact fun h => ⟨.inr h.1, h.2⟩
      · rintro ⟨rfl | h, hx⟩
        · exact absurd hseen hx
        · exact ⟨h, hx⟩
    · rw [List.map_cons, List.mem_cons, ih, List.map_cons, List.mem_cons, List.mem_cons]
      constructor
      · rintro (rfl | ⟨h, hx⟩)
        · exact ⟨.inl rfl, hseen⟩
        · exact ⟨.inr h, fun hs => hx (.inr hs)⟩
      · rintro ⟨h, hx⟩
        by_cases hxa : x = key a
        · exact .inl hxa
        · exact .inr ⟨h.resolve_left hxa, fun hs => hs.elim hxa hx⟩

theorem nodup_distinctBy : ((distinctBy key seen l).map key).Nodup := by
  induction l generalizing seen with
  | nil => exact .nil
  | cons a l ih =>
    rw [distinctBy]
    split_ifs
    · exact ih
    · rw [List.map_cons, List.nodup_cons]
      exact ⟨fun h => (mem_map_distinctBy.mp h).2 (List.mem_cons_self ..), ih⟩

/-- The first element with a property of the keys stays. -/
theorem find?_distinctBy (hp : ∀ a ∈ l, ∀ b ∈ l, key a = key b → p a = p b)
    (hseen : ∀ a ∈ l, key a ∈ seen → p a = false) :
    (distinctBy key seen l).find? p = l.find? p := by
  induction l generalizing seen with
  | nil => rfl
  | cons a l ih =>
    have hp' : ∀ b ∈ l, ∀ c ∈ l, key b = key c → p b = p c := fun b hb c hc =>
      hp b (List.mem_cons_of_mem _ hb) c (List.mem_cons_of_mem _ hc)
    have hseen' : ∀ b ∈ l, key b ∈ seen → p b = false := fun b hb =>
      hseen b (List.mem_cons_of_mem _ hb)
    rw [distinctBy]
    by_cases hs : key a ∈ seen
    · rw [if_pos hs, ih hp' hseen', List.find?_cons, hseen a (List.mem_cons_self ..) hs]
    · rw [if_neg hs, List.find?_cons, List.find?_cons]
      cases hpa : p a with
      | true => rfl
      | false =>
        apply ih hp'
        intro b hb hkey
        rcases List.mem_cons.mp hkey with hkey | hkey
        · rw [← hpa]
          exact hp b (List.mem_cons_of_mem _ hb) a (List.mem_cons_self ..) hkey
        · exact hseen' b hb hkey

/-- As many elements have a property of the keys as there are keys with it. -/
theorem countP_distinctBy (hp : ∀ a ∈ l, ∀ b ∈ l, key a = key b → p a = p b) :
    ((distinctBy key [] l).countP p : ℕ∞) = {x | ∃ a ∈ l, p a = true ∧ key a = x}.encard := by
  have hsub : (distinctBy key [] l).Sublist l := distinctBy_sublist
  have hset : {x | ∃ a ∈ l, p a = true ∧ key a = x} =
      (((distinctBy key [] l).filter p).map key).toFinset := by
    ext x
    rw [Set.mem_ofPred_eq, List.coe_toFinset, Set.mem_ofPred_eq, List.mem_map]
    constructor
    · rintro ⟨a, ha, hpa, rfl⟩
      obtain ⟨b, hb, hkey⟩ := List.mem_map.mp (mem_map_distinctBy.mpr
        ⟨List.mem_map_of_mem ha, List.not_mem_nil⟩ : key a ∈ (distinctBy key [] l).map key)
      have hpb : p b = true := (hp b (hsub.subset hb) a ha hkey).trans hpa
      exact ⟨b, List.mem_filter.mpr ⟨hb, hpb⟩, hkey⟩
    · rintro ⟨a, ha, rfl⟩
      obtain ⟨ha, hpa⟩ := List.mem_filter.mp ha
      exact ⟨a, hsub.subset ha, hpa, rfl⟩
  have hnodup : (((distinctBy key [] l).filter p).map key).Nodup :=
    nodup_distinctBy.sublist (List.filter_sublist.map key)
  rw [hset, Set.encard_coe_eq_coe_finsetCard, List.toFinset_card_of_nodup hnodup,
    List.length_map, List.countP_eq_length_filter]

end

/-! ### The order of the ranks -/

/-- Sorting keeps the order of the elements of one rank. -/
theorem filter_insertionSort (l : List α) (r : ℕ) :
    (l.insertionSort fun a b => rank a ≤ rank b).filter (rank · = r) = l.filter (rank · = r) := by
  have hfilter : (l.filter (rank · = r)).Pairwise fun a b => rank a ≤ rank b := by
    apply List.pairwise_of_forall_mem_list
    intro a ha b hb
    have ha := of_decide_eq_true (List.mem_filter.mp ha).2
    have hb := of_decide_eq_true (List.mem_filter.mp hb).2
    omega
  have hsub := (List.sublist_insertionSort hfilter List.filter_sublist).filter (rank · = r)
  rw [List.filter_filter] at hsub
  simp only [Bool.and_self] at hsub
  exact (hsub.eq_of_length (((List.perm_insertionSort _ l).filter _).length_eq).symm).symm

theorem find?_insertionSort (l : List α) (r : ℕ) :
    (l.insertionSort fun a b => rank a ≤ rank b).find? (rank · = r) =
      l.find? (rank · = r) := by
  rw [← List.head?_filter, ← List.head?_filter, filter_insertionSort]

/-- In a sorted list the first element of a rank comes right after those of lower ranks. -/
theorem find?_take_iff (hl : l.Pairwise fun a b => rank a ≤ rank b) :
    (l.take k).find? (rank · = r) = some c ↔
      l.find? (rank · = r) = some c ∧ l.countP (rank · < r) < k := by
  induction l generalizing k with
  | nil => simp
  | cons a l ih =>
    obtain ⟨ha, hl⟩ := List.pairwise_cons.mp hl
    cases k with
    | zero => simp
    | succ k =>
      rw [List.take_succ_cons, List.find?_cons, List.find?_cons, List.countP_cons]
      rcases lt_trichotomy (rank a) r with hlt | heq | hgt
      · rw [decide_eq_false hlt.ne, decide_eq_true hlt, if_pos rfl, ih hl]
        simp only [add_lt_add_iff_right]
      · have hzero : l.countP (rank · < r) = 0 := by
          rw [List.countP_eq_zero]
          intro b hb hlt
          have hle := ha b hb
          have hlt := of_decide_eq_true hlt
          omega
        rw [decide_eq_true heq, hzero, heq]
        simp
      · have hnone : ∀ l' : List α, l' ⊆ l → l'.find? (rank · = r) = none := by
          intro l' hsub
          rw [List.find?_eq_none]
          intro b hb he
          have hle := ha b (hsub hb)
          have he := of_decide_eq_true he
          omega
        rw [decide_eq_false hgt.ne', hnone _ (List.take_subset k l), hnone l (List.Subset.refl l)]
        simp

end Boule.Merged
