import Mathlib.Data.List.Induction
import Mathlib.Data.List.Sort
import Mathlib.Data.List.GetD
import Mathlib.Data.Nat.Init

/-! Lookup in lists sorted by a numeric key: the value of the last entry at or below a key,
and the binary search that finds it. -/
namespace Boule.Search
variable {α : Type}

/-- The value of the last entry whose key is at most `k`. -/
def lastLe (l : List (ℕ × α)) (k : ℕ) : Option α :=
  ((l.filter fun e => e.1 ≤ k).getLast?).map Prod.snd

theorem lastLe_append_of_lt {l : List (ℕ × α)} {e k : ℕ} (h : k < e) (a : α) :
    lastLe (l ++ [(e, a)]) k = lastLe l k := by
  unfold lastLe
  rw [List.filter_append, List.filter_cons_of_neg (by simpa using h), List.filter_nil,
    List.append_nil]

theorem lastLe_append_of_le {l : List (ℕ × α)} {e k : ℕ} (h : e ≤ k) (a : α) :
    lastLe (l ++ [(e, a)]) k = some a := by
  unfold lastLe
  rw [List.filter_append, List.filter_cons_of_pos (by simpa using h), List.filter_nil,
    List.getLast?_append]
  rfl

/-- The value of the entry with the greatest key that is at most `k`, and none exactly where every
key is above `k`. -/
structure LatestAt (l : List (ℕ × α)) (k : ℕ) (r : Option α) : Prop where
  found : ∀ a, r = some a → ∃ e, (e, a) ∈ l ∧ e ≤ k ∧ ∀ x ∈ l, x.1 ≤ k → x.1 ≤ e
  missing : r = none ↔ ∀ x ∈ l, k < x.1

/-- Where a key has one value there is one answer. -/
theorem LatestAt.unique {l : List (ℕ × α)} {k : ℕ} {r r' : Option α}
    (hl : ∀ e a a', (e, a) ∈ l → (e, a') ∈ l → a = a') (h : LatestAt l k r)
    (h' : LatestAt l k r') : r = r' := by
  cases r with
  | none => exact (h'.missing.mpr (h.missing.mp rfl)).symm
  | some a =>
    cases r' with
    | none => exact h.missing.mpr (h'.missing.mp rfl)
    | some a' =>
      obtain ⟨e, hmem, hle, hmax⟩ := h.found a rfl
      obtain ⟨e', hmem', hle', hmax'⟩ := h'.found a' rfl
      have hee : e = e' := Nat.le_antisymm (hmax' _ hmem hle) (hmax _ hmem' hle')
      rw [← hee] at hmem'
      rw [hl e a a' hmem hmem']

theorem latestAt_lastLe {l : List (ℕ × α)} (hs : (l.map Prod.fst).Pairwise (· < ·)) (k : ℕ) :
    LatestAt l k (lastLe l k) where
  found := by
    intro a ha
    obtain ⟨⟨e, b⟩, he, hb⟩ := Option.map_eq_some_iff.mp ha
    have hba : b = a := hb
    rw [hba] at he
    obtain ⟨hmem, hle⟩ := List.mem_filter.mp (List.mem_of_getLast? he)
    refine ⟨e, hmem, of_decide_eq_true hle, fun x hx hxk => ?_⟩
    have hactive : x ∈ l.filter fun e => e.1 ≤ k := List.mem_filter.mpr ⟨hx, decide_eq_true hxk⟩
    have hsorted := (List.pairwise_map.mp hs).filter fun e => e.1 ≤ k
    obtain ⟨init, hinit⟩ := List.getLast?_eq_some_iff.mp he
    rw [hinit] at hactive hsorted
    obtain hbefore | hlast := List.mem_append.mp hactive
    · exact ((List.pairwise_append.mp hsorted).2.2 x hbefore (e, a)
        (List.mem_singleton_self _)).le
    · rw [List.mem_singleton.mp hlast]
  missing := by
    unfold lastLe
    rw [Option.map_eq_none_iff, List.getLast?_eq_none_iff, List.filter_eq_nil_iff]
    refine forall_congr' fun x => imp_congr_right fun _ => ?_
    rw [decide_eq_true_eq, Nat.not_le]

/-- The documented result of a slice binary search on strictly sorted keys: `ok` with the
index of the key, or `error` with the index where it would be inserted. -/
def binarySearch (keys : List ℕ) (k : ℕ) : Except ℕ ℕ :=
  let i := keys.countP (· < k)
  if keys[i]? = some k then .ok i else .error i

/-- The index that a lookup at or below `k` uses: the key itself, or the one before it. -/
def floorIndex (keys : List ℕ) (k : ℕ) : ℕ :=
  match binarySearch keys k with
  | .ok i => i
  | .error i => i - 1

theorem floorIndex_lt {keys : List ℕ} (h : keys ≠ []) (k : ℕ) :
    floorIndex keys k < keys.length := by
  have hp : 0 < keys.length := List.length_pos_of_ne_nil h
  have hc : keys.countP (· < k) ≤ keys.length := List.countP_le_length
  unfold floorIndex binarySearch
  dsimp only
  by_cases hk : keys[keys.countP (· < k)]? = some k
  · rw [if_pos hk]
    exact (List.getElem?_eq_some_iff.mp hk).1
  · rw [if_neg hk]
    dsimp only
    omega

private theorem countP_lt_append_single (keys : List ℕ) (e k : ℕ) :
    (keys ++ [e]).countP (· < k) = keys.countP (· < k) + if e < k then 1 else 0 := by
  rw [List.countP_append, List.countP_singleton]
  simp

private theorem countP_lt_eq_length {keys : List ℕ} {k : ℕ} (h : ∀ x ∈ keys, x < k) :
    keys.countP (· < k) = keys.length :=
  List.countP_eq_length.mpr fun x hx => by simpa using h x hx

/-- A key appended above `k` does not move the lookup at `k`. -/
theorem floorIndex_append_of_lt {keys : List ℕ} {e k : ℕ} (h : k < e) :
    floorIndex (keys ++ [e]) k = floorIndex keys k := by
  have hc : (keys ++ [e]).countP (· < k) = keys.countP (· < k) := by
    rw [countP_lt_append_single, if_neg (by omega), Nat.add_zero]
  have hle : keys.countP (· < k) ≤ keys.length := List.countP_le_length
  have hg : ((keys ++ [e])[keys.countP (· < k)]? = some k) ↔
      (keys[keys.countP (· < k)]? = some k) := by
    rcases Nat.lt_or_eq_of_le hle with hlt | heq
    · rw [List.getElem?_append_left hlt]
    · rw [heq, List.getElem?_append_right le_rfl, Nat.sub_self, List.getElem?_eq_none le_rfl]
      simp
      omega
  unfold floorIndex binarySearch
  simp only [hc, hg]

/-- A key appended at or below `k`, above all others, is the one found at `k`. -/
theorem floorIndex_append_of_le {keys : List ℕ} {e k : ℕ} (h : e ≤ k) (hs : ∀ x ∈ keys, x < e) :
    floorIndex (keys ++ [e]) k = keys.length := by
  have hl : keys.countP (· < k) = keys.length :=
    countP_lt_eq_length fun x hx => lt_of_lt_of_le (hs x hx) h
  unfold floorIndex binarySearch
  rw [countP_lt_append_single, hl]
  rcases Nat.lt_or_eq_of_le h with hlt | rfl
  · simp [hlt]
  · simp

/-- On strictly sorted keys that start at or below `k`, the index found by binary search
holds the last entry at or below `k`. -/
theorem getElem?_floorIndex {l : List (ℕ × α)} {k : ℕ}
    (hs : (l.map Prod.fst).Pairwise (· < ·)) (hk : ∃ e ∈ l.head?, e.1 ≤ k) :
    (l[floorIndex (l.map Prod.fst) k]?).map Prod.snd = lastLe l k := by
  induction l using List.reverseRecOn with
  | nil => simp at hk
  | append_singleton l e ih =>
    rw [List.map_append, List.pairwise_append] at hs
    obtain ⟨hsl, -, hlt⟩ := hs
    have hbelow : ∀ x ∈ l.map Prod.fst, x < e.1 := fun x hx => hlt x hx e.1 (by simp)
    rw [List.map_append, List.map_singleton]
    rcases Nat.lt_or_ge k e.1 with hlt' | hge
    · have hne : l ≠ [] := by
        rintro rfl
        obtain ⟨x, hx, hxk⟩ := hk
        simp only [List.nil_append, List.head?_cons, Option.mem_some_iff] at hx
        subst hx
        omega
      have hh : ∃ x ∈ l.head?, x.1 ≤ k := by
        rwa [List.head?_append_of_ne_nil _ hne] at hk
      have hi : floorIndex (l.map Prod.fst) k < (l.map Prod.fst).length :=
        floorIndex_lt (by simpa using hne) k
      rw [floorIndex_append_of_lt hlt', List.getElem?_append_left (by simpa using hi),
        ih hsl hh]
      exact (lastLe_append_of_lt hlt' e.2).symm
    · rw [floorIndex_append_of_le hge hbelow, List.length_map,
        List.getElem?_append_right le_rfl, Nat.sub_self]
      exact (lastLe_append_of_le hge e.2).symm

end Boule.Search
