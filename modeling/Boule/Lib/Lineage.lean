import Mathlib.Data.List.Chain
import Mathlib.Data.Set.Card
import Mathlib.Logic.Relation

/-! Walking from an element to its ancestors, where each step goes down by one rank. -/
namespace Boule.Lineage

variable {α : Type} {parent : α → Option α} {rank : α → ℕ} {a b : α} {n lo hi cap : ℕ}

/-- `b` is `a` or one of its ancestors. -/
def Ancestor (parent : α → Option α) : α → α → Prop :=
  Relation.ReflTransGen fun x y => parent x = some y

/-- From `a` on, each parent is one rank lower. -/
def Ranked (parent : α → Option α) (rank : α → ℕ) (a : α) : Prop :=
  ∀ b, Ancestor parent a b → ∀ p, parent b = some p → rank b = rank p + 1

/-- The first `n` elements of the walk from `a`. -/
def lineage (parent : α → Option α) : ℕ → α → List α
  | 0, _ => []
  | n + 1, a => a :: (parent a).elim [] (lineage parent n)

theorem lineage_succ_none (h : parent a = none) : lineage parent (n + 1) a = [a] := by
  rw [lineage, h, Option.elim_none]

theorem lineage_succ_some (h : parent a = some b) :
    lineage parent (n + 1) a = a :: lineage parent n b := by
  rw [lineage, h, Option.elim_some]

theorem Ancestor.head (h : parent a = some b) {c : α} (hb : Ancestor parent b c) :
    Ancestor parent a c := Relation.ReflTransGen.head h hb

theorem Ancestor.cases_head {c : α} (h : Ancestor parent a c) :
    a = c ∨ ∃ b, parent a = some b ∧ Ancestor parent b c :=
  Relation.ReflTransGen.cases_head h

theorem Ranked.down (h : Ranked parent rank a) (hb : parent a = some b) :
    rank a = rank b + 1 ∧ Ranked parent rank b :=
  ⟨h a .refl b hb, fun c hc => h c (hc.head hb)⟩

theorem Ranked.le (h : Ranked parent rank a) (hb : Ancestor parent a b) : rank b ≤ rank a := by
  induction hb with
  | refl => exact le_rfl
  | tail hc hp ih =>
    have hstep := h _ hc _ hp
    omega

theorem ancestor_of_mem_lineage (h : b ∈ lineage parent n a) : Ancestor parent a b := by
  induction n generalizing a with
  | zero => cases h
  | succ n ih =>
    rw [lineage, List.mem_cons] at h
    rcases h with rfl | h
    · exact .refl
    · cases hp : parent a with
      | none =>
        rw [hp] at h
        cases h
      | some p =>
        rw [hp] at h
        exact (ih h).head hp

/-- The walk meets the ancestors, and only these. -/
theorem mem_lineage (h : Ranked parent rank a) (hn : rank a < n) :
    b ∈ lineage parent n a ↔ Ancestor parent a b := by
  refine ⟨ancestor_of_mem_lineage, fun hb => ?_⟩
  induction n generalizing a with
  | zero => omega
  | succ n ih =>
    rcases hb.cases_head with rfl | ⟨p, hp, hb⟩
    · exact List.mem_cons_self ..
    · obtain ⟨hrank, hranked⟩ := h.down hp
      rw [lineage_succ_some hp]
      exact List.mem_cons_of_mem _ (ih hranked (by omega) hb)

theorem isChain_lineage : (lineage parent n a).IsChain fun x y => parent x = some y := by
  induction n generalizing a with
  | zero => exact .nil
  | succ n ih =>
    cases hp : parent a with
    | none =>
      rw [lineage_succ_none hp]
      exact .singleton a
    | some p =>
      have htail := ih (a := p)
      rw [lineage_succ_some hp]
      cases n with
      | zero => exact .singleton a
      | succ n => exact .cons_cons hp htail

theorem pairwise_lineage (h : Ranked parent rank a) :
    (lineage parent n a).Pairwise fun x y => rank y < rank x := by
  induction n generalizing a with
  | zero => exact .nil
  | succ n ih =>
    cases hp : parent a with
    | none =>
      rw [lineage_succ_none hp]
      exact List.pairwise_singleton _ _
    | some p =>
      obtain ⟨hrank, hranked⟩ := h.down hp
      rw [lineage_succ_some hp, List.pairwise_cons]
      refine ⟨fun b hb => ?_, ih hranked⟩
      have hle := hranked.le (ancestor_of_mem_lineage hb)
      omega

/-- Ancestors of one rank are one. -/
theorem Ranked.eq_of_rank_eq (h : Ranked parent rank a) {c : α} (hb : Ancestor parent a b)
    (hc : Ancestor parent a c) (hrank : rank b = rank c) : b = c := by
  by_contra hne
  have hpair : (lineage parent (rank a + 1) a).Pairwise fun x y => rank x ≠ rank y :=
    (pairwise_lineage h).imp fun hlt => hlt.ne'
  have hmem : ∀ {x}, Ancestor parent a x → x ∈ lineage parent (rank a + 1) a :=
    fun hx => (mem_lineage h (Nat.lt_succ_self _)).mpr hx
  have : Std.Symm fun x y => rank x ≠ rank y := ⟨fun _ _ hxy => hxy.symm⟩
  exact hpair.forall (hmem hb) (hmem hc) hne hrank

/-! ### The part of a walk between two ranks -/

theorem filter_eq_takeWhile {R : α → α → Prop} {p : α → Bool} {l : List α} (hl : l.Pairwise R)
    (hp : ∀ x y, R x y → p y = true → p x = true) : l.filter p = l.takeWhile p := by
  induction l with
  | nil => rfl
  | cons x l ih =>
    obtain ⟨hx, hl⟩ := List.pairwise_cons.mp hl
    cases hpx : p x with
    | true => rw [List.filter_cons_of_pos hpx, List.takeWhile_cons_of_pos hpx, ih hl]
    | false =>
      have hfalse : ¬ p x = true := by simp [hpx]
      rw [List.filter_cons_of_neg hfalse, List.takeWhile_cons_of_neg hfalse]
      exact List.filter_eq_nil_iff.mpr fun y hy hpy => hfalse (hp x y (hx y hy) hpy)

theorem filter_eq_dropWhile {R : α → α → Prop} {p : α → Bool} {l : List α} (hl : l.Pairwise R)
    (hp : ∀ x y, R x y → p x = true → p y = true) :
    l.filter p = l.dropWhile fun x => !p x := by
  induction l with
  | nil => rfl
  | cons x l ih =>
    obtain ⟨hx, hl⟩ := List.pairwise_cons.mp hl
    cases hpx : p x with
    | true =>
      have hall : ∀ y ∈ x :: l, p y = true := by
        intro y hy
        rcases List.mem_cons.mp hy with rfl | hy
        · exact hpx
        · exact hp x y (hx y hy) hpx
      rw [List.filter_eq_self.mpr hall, List.dropWhile_cons_of_neg (by simp [hpx])]
    | false =>
      rw [List.filter_cons_of_neg (by simp [hpx]), List.dropWhile_cons_of_pos (by simp [hpx]),
        ih hl]

/-- The elements of the walk whose rank is from `lo` to `hi`, the highest first. -/
def segment (parent : α → Option α) (rank : α → ℕ) (lo hi n : ℕ) (a : α) : List α :=
  ((lineage parent n a).takeWhile (lo ≤ rank ·)).filter (rank · ≤ hi)

theorem segment_succ : segment parent rank lo hi (n + 1) a =
    if rank a < lo then []
    else (if rank a ≤ hi then [a] else []) ++
      (parent a).elim [] (segment parent rank lo hi n) := by
  unfold segment
  rw [lineage]
  by_cases hlo : rank a < lo
  · rw [if_pos hlo, List.takeWhile_cons_of_neg (by simpa using hlo), List.filter_nil]
  · rw [if_neg hlo, List.takeWhile_cons_of_pos (by simpa using hlo), List.filter_cons]
    cases parent a <;> by_cases hhi : rank a ≤ hi <;> simp [hhi]

theorem segment_isInfix (h : Ranked parent rank a) :
    segment parent rank lo hi n a <:+: lineage parent n a := by
  have hsorted := (pairwise_lineage (n := n) h).sublist (List.takeWhile_sublist (lo ≤ rank ·))
  rw [segment, filter_eq_dropWhile hsorted fun x y hxy hx => by
    have hle := of_decide_eq_true hx
    exact decide_eq_true (by omega)]
  exact (List.dropWhile_suffix _).isInfix.trans (List.takeWhile_prefix _).isInfix

theorem isChain_segment (h : Ranked parent rank a) :
    (segment parent rank lo hi n a).IsChain fun x y => parent x = some y :=
  isChain_lineage.infix (segment_isInfix h)

theorem pairwise_segment (h : Ranked parent rank a) :
    (segment parent rank lo hi n a).Pairwise fun x y => rank y < rank x :=
  (pairwise_lineage h).sublist (segment_isInfix h).sublist

theorem mem_segment (h : Ranked parent rank a) (hn : rank a < n) :
    b ∈ segment parent rank lo hi n a ↔ Ancestor parent a b ∧ lo ≤ rank b ∧ rank b ≤ hi := by
  rw [segment, ← filter_eq_takeWhile (pairwise_lineage h) fun x y hxy hy => by
    have hle := of_decide_eq_true hy
    exact decide_eq_true (by omega)]
  rw [List.mem_filter, List.mem_filter, mem_lineage h hn, decide_eq_true_iff,
    decide_eq_true_iff, and_assoc]

/-- There are as many of them as ancestors between the two ranks. -/
theorem encard_between (h : Ranked parent rank a) (hn : rank a < n) :
    {b | Ancestor parent a b ∧ lo ≤ rank b ∧ rank b ≤ hi}.encard =
      (segment parent rank lo hi n a).length := by
  classical
  have hnodup : (segment parent rank lo hi n a).Nodup :=
    (pairwise_segment h).imp fun hlt he => by
      rw [he] at hlt
      exact lt_irrefl _ hlt
  have hset : {b | Ancestor parent a b ∧ lo ≤ rank b ∧ rank b ≤ hi} =
      ((segment parent rank lo hi n a).toFinset : Set α) := by
    ext b
    rw [Set.mem_ofPred_eq, ← mem_segment h hn, List.coe_toFinset, Set.mem_ofPred_eq]
  rw [hset, Set.encard_coe_eq_coe_finsetCard, List.toFinset_card_of_nodup hnodup]

/-- No rank comes twice. -/
theorem length_segment_le (h : Ranked parent rank a) :
    (segment parent rank lo hi n a).length ≤ hi + 1 - lo := by
  have hranks : ((segment parent rank lo hi n a).map rank).Nodup :=
    List.pairwise_map.mpr ((pairwise_segment h).imp fun hlt => hlt.ne')
  have hsub : (segment parent rank lo hi n a).map rank ⊆ List.range' lo (hi + 1 - lo) := by
    intro r hr
    obtain ⟨b, hb, rfl⟩ := List.mem_map.mp hr
    have hlo := List.all_eq_true.mp List.all_takeWhile b (List.mem_filter.mp hb).1
    have hhi := (List.mem_filter.mp hb).2
    rw [decide_eq_true_iff] at hlo hhi
    rw [List.mem_range'_1]
    omega
  have hle := (hranks.subperm hsub).length_le
  rwa [List.length_map, List.length_range'] at hle

/-- The first `cap` elements of a falling list are the lowest ones only when they are all. -/
theorem take_lowest_iff {l : List α} (hl : l.Pairwise fun x y => rank y < rank x) :
    (∀ b ∈ l, b ∉ l.take cap →
        (l.take cap).length = cap ∧ ∀ x ∈ l.take cap, rank x < rank b) ↔
      cap = 0 ∨ l.length ≤ cap := by
  constructor
  · intro hlow
    by_contra hnot
    obtain ⟨hcap, hlen⟩ := not_or.mp hnot
    have hlen : cap < l.length := by omega
    have hsplit := List.pairwise_append.mp ((List.take_append_drop cap l).symm ▸ hl)
    have hlast : l[cap] ∈ l.drop cap := by
      rw [List.drop_eq_getElem_cons hlen]
      exact List.mem_cons_self ..
    have hfirst : l[0] ∈ l.take cap := by
      rw [List.mem_take_iff_getElem]
      exact ⟨0, by omega, rfl⟩
    have hfall := hsplit.2.2 _ hfirst _ hlast
    have hnotin : l[cap] ∉ l.take cap := fun hin => lt_irrefl _ (hsplit.2.2 _ hin _ hlast)
    have hrise := (hlow _ (List.getElem_mem hlen) hnotin).2 _ hfirst
    omega
  · rintro (rfl | hlen) b hb hnot
    · exact ⟨rfl, fun x hx => by cases hx⟩
    · rw [List.take_of_length_le hlen] at hnot
      exact absurd hb hnot

end Boule.Lineage
