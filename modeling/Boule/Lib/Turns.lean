import Mathlib.Data.Nat.Count
import Mathlib.Data.Int.CardIntervalMod
import Mathlib.Order.Basic

/-! The first maximum of a list, and the turns of participants that take them in rotation. -/
namespace Boule

section firstMax
variable {α : Type} [LinearOrder α]

/-- One pass over the rest of the list; only a strictly greater entry replaces the best. -/
def firstMaxLoop : List α → ℕ → ℕ × α → ℕ
  | [], _, best => best.1
  | x :: xs, i, best => firstMaxLoop xs (i + 1) (if best.2 < x then (i, x) else best)

/-- The index of the first maximum; zero on the empty list. -/
def firstMax : List α → ℕ
  | [] => 0
  | x :: xs => firstMaxLoop xs 1 (0, x)

/-- No entry exceeds the one at `b`, and those before it are smaller. -/
def IsFirstMax (l : List α) (b : ℕ) : Prop :=
  ∃ x, l[b]? = some x ∧ ∀ j y, l[j]? = some y → y ≤ x ∧ (j < b → y < x)

theorem IsFirstMax.unique {l : List α} {a b : ℕ} (ha : IsFirstMax l a) (hb : IsFirstMax l b) :
    a = b := by
  obtain ⟨x, hx, hmax⟩ := ha
  obtain ⟨y, hy, hmax'⟩ := hb
  have hyx := hmax b y hy
  have hxy := hmax' a x hx
  rcases Nat.lt_trichotomy a b with h | h | h
  · exact absurd (hxy.2 h) (not_lt_of_ge hyx.1)
  · exact h
  · exact absurd (hyx.2 h) (not_lt_of_ge hxy.1)

theorem isFirstMax_append_single {l : List α} {b : ℕ} {x y : α} (hb : IsFirstMax l b)
    (hx : l[b]? = some x) :
    IsFirstMax (l ++ [y]) (if x < y then (l.length, y) else (b, x)).1 ∧
      (l ++ [y])[(if x < y then (l.length, y) else (b, x)).1]? =
        some (if x < y then (l.length, y) else (b, x)).2 := by
  obtain ⟨x', hx', hmax⟩ := hb
  obtain rfl : x' = x := Option.some.inj (hx'.symm.trans hx)
  have hlt : b < l.length := (List.getElem?_eq_some_iff.mp hx).1
  have hlast : (l ++ [y])[l.length]? = some y := by simp
  have hkeep : (l ++ [y])[b]? = some x' := by rw [List.getElem?_append_left hlt, hx]
  have hold : ∀ j z, (l ++ [y])[j]? = some z → l[j]? = some z ∨ (j = l.length ∧ z = y) := by
    intro j z hz
    rcases Nat.lt_or_ge j l.length with hj | hj
    · rw [List.getElem?_append_left hj] at hz
      exact .inl hz
    · rw [List.getElem?_append_right hj, List.getElem?_singleton] at hz
      split_ifs at hz with h0
      exact .inr ⟨by omega, (Option.some.inj hz).symm⟩
  split_ifs with hxy
  · refine ⟨⟨y, hlast, fun j z hz => ?_⟩, hlast⟩
    rcases hold j z hz with hz | ⟨rfl, rfl⟩
    · have hlt := lt_of_le_of_lt (hmax j z hz).1 hxy
      exact ⟨hlt.le, fun _ => hlt⟩
    · exact ⟨le_refl _, fun h => absurd h (Nat.lt_irrefl _)⟩
  · refine ⟨⟨x', hkeep, fun j z hz => ?_⟩, hkeep⟩
    rcases hold j z hz with hz | ⟨rfl, rfl⟩
    · exact hmax j z hz
    · exact ⟨le_of_not_gt hxy, fun h => absurd h (by omega)⟩

theorem isFirstMax_firstMaxLoop {xs l : List α} {best : ℕ × α} (hb : IsFirstMax l best.1)
    (hx : l[best.1]? = some best.2) :
    IsFirstMax (l ++ xs) (firstMaxLoop xs l.length best) := by
  induction xs generalizing l best with
  | nil =>
    rw [List.append_nil]
    exact hb
  | cons x xs ih =>
    obtain ⟨hmax, hget⟩ := isFirstMax_append_single (y := x) hb hx
    have hrest := ih hmax hget
    rw [List.append_assoc, List.singleton_append, List.length_append, List.length_singleton]
      at hrest
    exact hrest

theorem isFirstMax_firstMax {l : List α} (h : l ≠ []) : IsFirstMax l (firstMax l) := by
  cases l with
  | nil => exact absurd rfl h
  | cons x xs =>
    have hsingle : IsFirstMax [x] 0 := by
      refine ⟨x, rfl, fun j y hy => ?_⟩
      rw [List.getElem?_singleton] at hy
      split_ifs at hy with hj
      exact ⟨(Option.some.inj hy).ge, fun h => absurd h (by omega)⟩
    exact isFirstMax_firstMaxLoop (l := [x]) hsingle rfl

theorem isFirstMax_map_range_iff (n : ℕ) (f : ℕ → α) (b : ℕ) :
    IsFirstMax ((List.range n).map f) b ↔
      b < n ∧ ∀ x < n, f x ≤ f b ∧ (x < b → f x < f b) := by
  have hget : ∀ j y, ((List.range n).map f)[j]? = some y ↔ j < n ∧ f j = y := by
    intro j y
    rw [List.getElem?_map]
    rcases Nat.lt_or_ge j n with hj | hj
    · simp [hj]
    · simp [hj]
  unfold IsFirstMax
  simp only [hget]
  constructor
  · rintro ⟨_, ⟨hb, rfl⟩, hmax⟩
    exact ⟨hb, fun x hx => hmax x _ ⟨hx, rfl⟩⟩
  · rintro ⟨hb, hmax⟩
    refine ⟨f b, ⟨hb, rfl⟩, ?_⟩
    rintro x _ ⟨hx, rfl⟩
    exact hmax x hx

end firstMax

/-! ### Rotation -/

/-- How often `x` has its turn in the first `t` rounds, when round `t` is the turn of
`(s + t) % n`. -/
def turns (n s x t : ℕ) : ℕ := t.count fun k => (s + k) % n = x

theorem turns_succ (n s x t : ℕ) :
    turns n s x (t + 1) = turns n s x t + if x = (s + t) % n then 1 else 0 := by
  unfold turns
  rw [Nat.count_succ]
  simp only [eq_comm]

theorem add_mod_eq_iff {n s x : ℕ} (hx : x < n) (k : ℕ) :
    (s + k) % n = x ↔ k ≡ x + (n - s % n) [MOD n] := by
  have hs : s % n < n := Nat.mod_lt _ (by omega)
  have hd : s + (n - s % n) = n * (s / n + 1) := by
    have hdiv := Nat.div_add_mod s n
    rw [Nat.mul_add]
    omega
  have hk : s + k + (n - s % n) ≡ k [MOD n] := by
    rw [show s + k + (n - s % n) = k + n * (s / n + 1) by omega]
    exact Nat.add_mul_mod_self_left ..
  calc (s + k) % n = x ↔ s + k ≡ x [MOD n] := by rw [Nat.ModEq, Nat.mod_eq_of_lt hx]
    _ ↔ s + k + (n - s % n) ≡ x + (n - s % n) [MOD n] :=
      ⟨fun h => h.add_right _, fun h => h.add_right_cancel' _⟩
    _ ↔ k ≡ x + (n - s % n) [MOD n] := ⟨fun h => hk.symm.trans h, fun h => hk.trans h⟩

theorem turns_eq {n s x : ℕ} (hx : x < n) (t : ℕ) :
    turns n s x t = t / n + if (x + (n - s % n)) % n < t % n then 1 else 0 := by
  rw [← Nat.count_modEq_card t (Nat.zero_lt_of_lt hx)]
  unfold turns
  simp only [add_mod_eq_iff hx]

theorem turns_le {n s x : ℕ} (hx : x < n) (t : ℕ) : turns n s x t ≤ t / n + 1 := by
  rw [turns_eq hx]
  split_ifs <;> omega

/-- Whoever has the next turn has had exactly one in each complete rotation. -/
theorem turns_of_next {n s : ℕ} (hn : 0 < n) (t : ℕ) : turns n s ((s + t) % n) t = t / n := by
  have hx : (s + t) % n < n := Nat.mod_lt _ hn
  have ht : t % n = ((s + t) % n + (n - s % n)) % n := (add_mod_eq_iff hx t).mp rfl
  rw [turns_eq hx, if_neg, Nat.add_zero]
  omega

/-- Everyone has a turn in any `n` successive rounds. -/
theorem exists_turn {n x : ℕ} (hx : x < n) (s t : ℕ) :
    ∃ t', t ≤ t' ∧ t' < t + n ∧ (s + t') % n = x := by
  have hn : 0 < n := by omega
  refine ⟨t + (x + (n - (s + t) % n)) % n, by omega, ?_, ?_⟩
  · have := Nat.mod_lt (x + (n - (s + t) % n)) hn
    omega
  · rw [← Nat.add_assoc]
    exact (add_mod_eq_iff hx _).mpr (Nat.mod_modEq _ _)

theorem turns_mono (n s x : ℕ) {t t' : ℕ} (h : t ≤ t') : turns n s x t ≤ turns n s x t' :=
  Nat.count_monotone _ h

end Boule
