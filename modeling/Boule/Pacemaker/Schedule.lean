import Boule.HotStuff.Headers
import Boule.Pacemaker.Leader
import Mathlib.Data.Finset.Max
import Mathlib.Tactic.Linarith
import Mathlib.Tactic.Ring

/-! The two leader schedules: the rotation of the safety core and the pacemaker's weighted
accumulator. They coincide in a regime of equal weights that starts at a multiple of the set's
length, and in no other regime that is long enough. -/
namespace Boule

namespace Schedule
variable (vs : ValidatorSet) (s : ℕ)

/-- How far `x` is behind its share after `t` views in which the rotation led. -/
def lag (t x : ℕ) : ℤ := t * vs.weightAt x - vs.totalWeight * turns vs.len s x t

/-- The same with the weight of the next view added. -/
def raised (t x : ℕ) : ℤ := (t + 1) * vs.weightAt x - vs.totalWeight * turns vs.len s x t

/-- After `t` views the priorities are the lags of the rotation. -/
def Follows (t : ℕ) : Prop := (replay vs t).1 = (List.range vs.len).map (lag vs s t)

/-- `a` has the first of the greatest raised priorities. -/
def Leads (t a : ℕ) : Prop :=
  a < vs.len ∧ ∀ x < vs.len, raised vs s t x ≤ raised vs s t a ∧
    (x < a → raised vs s t x < raised vs s t a)

/-- The priorities of the next view stay far inside the range of `i128`. -/
structure InRange (t : ℕ) : Prop where
  lower : ∀ x < vs.len, -2 ^ 126 ≤ raised vs s t x
  upper : ∀ x < vs.len, raised vs s t x < 2 ^ 127

variable {vs s}

theorem raised_eq (t x : ℕ) : raised vs s t x = lag vs s t x + vs.weightAt x := by
  unfold raised lag
  ring

theorem lag_succ (t x : ℕ) : lag vs s (t + 1) x =
    raised vs s t x - if x = (s + t) % vs.len then (vs.totalWeight : ℤ) else 0 := by
  unfold lag raised
  rw [turns_succ]
  split_ifs <;> push_cast <;> ring

theorem follows_zero : Follows vs s 0 := by
  have hlag : lag vs s 0 = fun _ => 0 := by
    funext x
    simp [lag, turns]
  unfold Follows
  rw [hlag, List.map_const', List.length_range]
  rfl

theorem totalWeight_lt (vs : ValidatorSet) : (vs.totalWeight : ℤ) < 2 ^ 96 := by
  rw [ValidatorSet.totalWeight_eq_weight]
  exact_mod_cast vs.weight_lt (Finset.Subset.refl _)

theorem zipWith_raised {t : ℕ} (hr : InRange vs s t) :
    List.zipWith (fun p (w : UInt64) => saturateI128 (p + w.toNat))
      ((List.range vs.len).map (lag vs s t)) vs.weights =
      (List.range vs.len).map (raised vs s t) := by
  have hlen : vs.weights.length = vs.len := vs.weights_length
  apply List.ext_getElem
  · simp [hlen]
  · intro x hx hx'
    have hlt : x < vs.len := by simpa using hx'
    have hw := vs.weightAt_eq_getElem (hlen.symm ▸ hlt)
    have hlo := hr.lower x hlt
    have hhi := hr.upper x hlt
    rw [raised_eq] at hlo hhi
    simp only [List.getElem_zipWith, List.getElem_map, List.getElem_range, ← hw, raised_eq]
    exact saturateI128_eq (by omega) hhi

/-- While nothing saturates, the next leader has the first of the greatest raised priorities. -/
theorem leads_of_follows (hn : 0 < vs.len) {t : ℕ} (hf : Follows vs s t) (hr : InRange vs s t) :
    Leads vs s t (replay vs (t + 1)).2 := by
  have hne : (List.range vs.len).map (raised vs s t) ≠ [] := by
    simp only [ne_eq, List.map_eq_nil_iff, List.range_eq_nil]
    omega
  rw [replay_succ, hf, accumulatorStep, zipWith_raised hr]
  exact (isFirstMax_map_range_iff _ _ _).mp (isFirstMax_firstMax hne)

theorem Leads.unique {t a b : ℕ} (ha : Leads vs s t a) (hb : Leads vs s t b) : a = b :=
  ((isFirstMax_map_range_iff _ _ _).mpr ha).unique ((isFirstMax_map_range_iff _ _ _).mpr hb)

theorem follows_succ {t : ℕ} (hf : Follows vs s t) (hr : InRange vs s t)
    (hlead : (replay vs (t + 1)).2 = (s + t) % vs.len) : Follows vs s (t + 1) := by
  have hW := totalWeight_lt vs
  rw [replay_succ, hf, accumulatorStep, zipWith_raised hr] at hlead
  have hbest : firstMax ((List.range vs.len).map (raised vs s t)) = (s + t) % vs.len := hlead
  unfold Follows
  rw [replay_succ, hf, accumulatorStep, zipWith_raised hr]
  simp only [hbest]
  apply List.ext_getElem
  · simp
  · intro x hx hx'
    have hlt : x < vs.len := by simpa using hx'
    have hlo := hr.lower x hlt
    have hhi := hr.upper x hlt
    rw [List.getElem_modify]
    simp only [List.getElem_map, List.getElem_range, lag_succ, eq_comm]
    split_ifs
    · exact saturateI128_eq (by omega) (by omega)
    · rw [sub_zero]

/-! ### Equal weights -/

section equal
variable {w : ℕ} (hw : ∀ x < vs.len, vs.weightAt x = w)
include hw

theorem totalWeight_of_equal : vs.totalWeight = vs.len * w := by
  rw [ValidatorSet.totalWeight_eq_weight, Quorum.weight,
    Finset.sum_congr rfl fun x hx => hw x (Finset.mem_range.mp hx)]
  simp

theorem raised_of_equal {x : ℕ} (hx : x < vs.len) (t : ℕ) : raised vs 0 t x =
    ((t % vs.len : ℕ) + 1) * w - if x < t % vs.len then (vs.len : ℤ) * w else 0 := by
  have hdiv : (vs.len : ℤ) * (t / vs.len : ℕ) + (t % vs.len : ℕ) = t := by
    exact_mod_cast Nat.div_add_mod t vs.len
  have hturns : turns vs.len 0 x t = t / vs.len + if x < t % vs.len then 1 else 0 := by
    rw [turns_eq hx, Nat.zero_mod, Nat.sub_zero, Nat.add_mod_right, Nat.mod_eq_of_lt hx]
  unfold raised
  rw [hw x hx, totalWeight_of_equal hw, hturns, ← hdiv]
  split_ifs <;> push_cast <;> ring

theorem leads_of_equal (hn : 0 < vs.len) (hpos : 0 < w) (t : ℕ) :
    Leads vs 0 t (t % vs.len) := by
  have ha : t % vs.len < vs.len := Nat.mod_lt _ hn
  have hnw : 0 < (vs.len : ℤ) * w := by positivity
  refine ⟨ha, fun x hx => ?_⟩
  rw [raised_of_equal hw hx, raised_of_equal hw ha, if_neg (Nat.lt_irrefl _), sub_zero]
  constructor
  · split_ifs <;> omega
  · intro hxa
    rw [if_pos hxa]
    omega

theorem inRange_of_equal (t : ℕ) : InRange vs 0 t := by
  have hW := totalWeight_lt vs
  rw [totalWeight_of_equal hw] at hW
  push_cast at hW
  have hle : ∀ x < vs.len, ((t % vs.len : ℕ) + 1 : ℤ) * w ≤ vs.len * w := by
    intro x hx
    have ha : t % vs.len + 1 ≤ vs.len := Nat.mod_lt _ (by omega)
    exact_mod_cast Nat.mul_le_mul_right w ha
  have hnonneg : (0 : ℤ) ≤ ((t % vs.len : ℕ) + 1 : ℤ) * w := by positivity
  constructor
  · intro x hx
    have hx' := hle x hx
    rw [raised_of_equal hw hx]
    split_ifs <;> omega
  · intro x hx
    have hx' := hle x hx
    rw [raised_of_equal hw hx]
    split_ifs <;> omega

/-- With equal weights the accumulator rotates from the first validator on. -/
theorem replay_of_equal (hn : 0 < vs.len) (hpos : 0 < w) (t : ℕ) :
    (replay vs (t + 1)).2 = t % vs.len := by
  have hlead : ∀ t, Follows vs 0 t → (replay vs (t + 1)).2 = t % vs.len := fun t hf =>
    (leads_of_follows hn hf (inRange_of_equal hw t)).unique (leads_of_equal hw hn hpos t)
  have hfollows : ∀ t, Follows vs 0 t := by
    intro t
    induction t with
    | zero => exact follows_zero
    | succ t ih =>
      refine follows_succ ih (inRange_of_equal hw t) ?_
      rw [Nat.zero_add]
      exact hlead t ih
  exact hlead t (hfollows t)

end equal

/-! ### Regimes that follow the rotation -/

section rotation
variable {i j : ℕ}

/-- A validator of at most average weight is never more than the total behind at its turn. -/
theorem raised_le_of_turn (hj : vs.len * vs.weightAt j ≤ vs.totalWeight) {t : ℕ}
    (hlt : j < vs.len) (hturn : (s + t) % vs.len = j) : raised vs s t j ≤ vs.totalWeight := by
  have hn : 0 < vs.len := by omega
  have hdiv := Nat.div_add_mod t vs.len
  have hmod : t % vs.len + 1 ≤ vs.len := Nat.mod_lt _ hn
  have hturns : turns vs.len s j t = t / vs.len := hturn ▸ turns_of_next hn t
  have h₁ : t / vs.len * (vs.len * vs.weightAt j) ≤ t / vs.len * vs.totalWeight :=
    Nat.mul_le_mul_left _ hj
  have h₂ : (t % vs.len + 1) * vs.weightAt j ≤ vs.len * vs.weightAt j :=
    Nat.mul_le_mul_right _ hmod
  have hsum : (t + 1) * vs.weightAt j =
      t / vs.len * (vs.len * vs.weightAt j) + (t % vs.len + 1) * vs.weightAt j := by
    conv_lhs => rw [← hdiv]
    ring
  have hle : (t + 1) * vs.weightAt j ≤ vs.totalWeight * (t / vs.len) + vs.totalWeight := by
    rw [hsum, Nat.mul_comm vs.totalWeight]
    omega
  unfold raised
  rw [hturns]
  have hle' : ((t + 1) * vs.weightAt j : ℤ) ≤
      vs.totalWeight * (t / vs.len : ℕ) + vs.totalWeight := by exact_mod_cast hle
  omega

/-- A validator of at least average weight is never more than the total ahead. -/
theorem le_raised_of_heavy (hi : vs.totalWeight ≤ vs.len * vs.weightAt i) (hlt : i < vs.len)
    (t : ℕ) : -(vs.totalWeight : ℤ) ≤ raised vs s t i := by
  have hdiv := Nat.div_add_mod t vs.len
  have hturns : vs.totalWeight * turns vs.len s i t ≤ vs.totalWeight * (t / vs.len + 1) :=
    Nat.mul_le_mul_left _ (turns_le hlt t)
  have h₁ : t / vs.len * vs.totalWeight ≤ t / vs.len * (vs.len * vs.weightAt i) :=
    Nat.mul_le_mul_left _ hi
  have hsum : (t + 1) * vs.weightAt i =
      t / vs.len * (vs.len * vs.weightAt i) + (t % vs.len + 1) * vs.weightAt i := by
    conv_lhs => rw [← hdiv]
    ring
  have hle : vs.totalWeight * turns vs.len s i t ≤ (t + 1) * vs.weightAt i + vs.totalWeight := by
    rw [Nat.mul_comm, Nat.mul_add, Nat.mul_one] at hturns
    rw [hsum, Nat.mul_comm]
    rw [Nat.mul_comm _ (t / vs.len)] at hturns
    omega
  unfold raised
  have hle' : (vs.totalWeight * turns vs.len s i t : ℤ) ≤
      (t + 1) * vs.weightAt i + vs.totalWeight := by exact_mod_cast hle
  omega

theorem raised_le_add {t t' x : ℕ} (h : t' ≤ t) :
    raised vs s t x ≤ raised vs s t' x + ((t - t' : ℕ) : ℤ) * vs.weightAt x := by
  have hmono : (vs.totalWeight * turns vs.len s x t' : ℤ) ≤
      vs.totalWeight * turns vs.len s x t := by
    exact_mod_cast Nat.mul_le_mul_left _ (turns_mono vs.len s x h)
  have hsplit : ((t : ℤ) + 1) * vs.weightAt x =
      (t' + 1) * vs.weightAt x + ((t - t' : ℕ) : ℤ) * vs.weightAt x := by
    rw [Nat.cast_sub h]
    ring
  unfold raised
  rw [hsplit]
  omega

theorem share_lt {k x : ℕ} (hk : k ≤ vs.len) : (k : ℤ) * vs.weightAt x < 2 ^ 96 := by
  have hlen : vs.len < 2 ^ 32 := vs.length_lt
  have hle : k * vs.weightAt x ≤ 2 ^ 32 * vs.weightAt x := Nat.mul_le_mul_right _ (by omega)
  have hlt : k * vs.weightAt x < 2 ^ 96 := by
    have := vs.weightAt_lt x
    omega
  exact_mod_cast hlt

/-- The priorities stay in range as long as the rotation has led. -/
theorem inRange_of_leads (hj : vs.len * vs.weightAt j ≤ vs.totalWeight) (hjlt : j < vs.len)
    (hi : vs.totalWeight ≤ vs.len * vs.weightAt i) (hilt : i < vs.len) {t : ℕ}
    (hlead : ∀ t' < t, Leads vs s t' ((s + t') % vs.len)) : InRange vs s t := by
  have hW := totalWeight_lt vs
  constructor
  · intro x hx
    have hbehind : ∀ k, turns vs.len s x t ≤ k →
        ((t + 1) * vs.weightAt x : ℤ) - vs.totalWeight * k ≤ raised vs s t x := by
      intro k hk
      have hle : (vs.totalWeight * turns vs.len s x t : ℤ) ≤ vs.totalWeight * k := by
        exact_mod_cast Nat.mul_le_mul_left _ hk
      unfold raised
      omega
    by_cases ht : t < vs.len
    · have hturns := turns_le (s := s) hx t
      rw [Nat.div_eq_of_lt ht] at hturns
      have hge := hbehind 1 hturns
      have hpos : (0 : ℤ) ≤ (t + 1) * vs.weightAt x := by positivity
      push_cast at hge
      omega
    · obtain ⟨t', hge, hlt, hturn⟩ := exists_turn hx s (t - vs.len)
      have hheavy := le_raised_of_heavy (s := s) hi hilt t'
      have hmax := ((hlead t' (by omega)).2 i hilt).1
      rw [hturn] at hmax
      have hdiv : t / vs.len ≤ t' / vs.len + 1 := by
        rw [← Nat.add_div_right t' (by omega)]
        exact Nat.div_le_div_right (by omega)
      have hturns' : turns vs.len s x t' = t' / vs.len := hturn ▸ turns_of_next (by omega) t'
      have hturns : turns vs.len s x t ≤ turns vs.len s x t' + 2 := by
        have := turns_le (s := s) hx t
        omega
      have hback := hbehind _ hturns
      have hgrow : ((t' + 1) * vs.weightAt x : ℤ) ≤ (t + 1) * vs.weightAt x := by
        exact_mod_cast Nat.mul_le_mul_right _ (show t' + 1 ≤ t + 1 by omega)
      unfold raised at hmax hheavy
      push_cast at hback
      rw [mul_add] at hback
      omega
  · intro x hx
    by_cases ht : t < vs.len
    · have hshare : ((t + 1 : ℕ) : ℤ) * vs.weightAt x < 2 ^ 96 := share_lt (by omega)
      have hpos : (0 : ℤ) ≤ vs.totalWeight * turns vs.len s x t := by positivity
      unfold raised
      push_cast at hshare
      omega
    · obtain ⟨t', hge, hlt, hturn⟩ := exists_turn hjlt s (t - vs.len)
      have hmax := ((hlead t' (by omega)).2 x hx).1
      rw [hturn] at hmax
      have htop := raised_le_of_turn hj hjlt hturn
      have hgrow : raised vs s t x ≤ raised vs s t' x + ((t - t' : ℕ) : ℤ) * vs.weightAt x :=
        raised_le_add (by omega)
      have hshare : ((t - t' : ℕ) : ℤ) * vs.weightAt x < 2 ^ 96 := share_lt (by omega)
      omega

/-- As long as the accumulator follows the rotation, its priorities are the lags. -/
theorem leads_of_agree (hj : vs.len * vs.weightAt j ≤ vs.totalWeight) (hjlt : j < vs.len)
    (hi : vs.totalWeight ≤ vs.len * vs.weightAt i) (hilt : i < vs.len) {rounds : ℕ}
    (hagree : ∀ t < rounds, (replay vs (t + 1)).2 = (s + t) % vs.len) {t : ℕ}
    (ht : t ≤ rounds) :
    Follows vs s t ∧ ∀ t' < t, Leads vs s t' ((s + t') % vs.len) := by
  induction t with
  | zero => exact ⟨follows_zero, fun t' h => absurd h (Nat.not_lt_zero _)⟩
  | succ t ih =>
    obtain ⟨hf, hlead⟩ := ih (by omega)
    have hr := inRange_of_leads hj hjlt hi hilt hlead
    have hnext := leads_of_follows (by omega) hf hr
    rw [hagree t (by omega)] at hnext
    refine ⟨follows_succ hf hr (hagree t (by omega)), fun t' ht' => ?_⟩
    by_cases he : t' = t
    · exact he ▸ hnext
    · exact hlead t' (by omega)

/-- At the turn of `j` a heavier validator has at most one turn more, which pays for at most
the total weight. -/
theorem not_leads_of_lt {x : ℕ} (hx : x < vs.len)
    (hw : vs.weightAt j < vs.weightAt x) {t : ℕ} (ht : vs.totalWeight ≤ t)
    (hturn : (s + t) % vs.len = j) : ¬ Leads vs s t j := by
  intro hlead
  have hmax := (hlead.2 x hx).1
  have hturns : turns vs.len s j t = t / vs.len := hturn ▸ turns_of_next (by omega) t
  have hother : (vs.totalWeight * turns vs.len s x t : ℤ) ≤
      vs.totalWeight * (t / vs.len : ℕ) + vs.totalWeight := by
    have := Nat.mul_le_mul_left vs.totalWeight (turns_le (s := s) hx t)
    rw [Nat.mul_add, Nat.mul_one] at this
    exact_mod_cast this
  have hgap : ((t + 1) * vs.weightAt j + (t + 1) : ℤ) ≤ (t + 1) * vs.weightAt x := by
    have := Nat.mul_le_mul_left (t + 1) (Nat.succ_le_of_lt hw)
    rw [Nat.succ_eq_add_one, Nat.mul_add, Nat.mul_one] at this
    exact_mod_cast this
  unfold raised at hmax
  rw [hturns] at hmax
  omega

/-- A rotation over more views than the total weight has equal weights. -/
theorem equal_of_agree (hn : 0 < vs.len)
    (hagree : ∀ t < vs.totalWeight + vs.len, (replay vs (t + 1)).2 = (s + t) % vs.len) :
    ∀ x < vs.len, ∀ y < vs.len, vs.weightAt x = vs.weightAt y := by
  have hne : (Finset.range vs.len).Nonempty := ⟨0, Finset.mem_range.mpr hn⟩
  obtain ⟨j, hj, hmin⟩ := Finset.exists_min_image (Finset.range vs.len) vs.weightAt hne
  obtain ⟨i, hi, hmax⟩ := Finset.exists_max_image (Finset.range vs.len) vs.weightAt hne
  have hlight : vs.len * vs.weightAt j ≤ vs.totalWeight := by
    have hsum := Finset.card_nsmul_le_sum (Finset.range vs.len) vs.weightAt _ hmin
    rw [Finset.card_range, nsmul_eq_mul, Nat.cast_id] at hsum
    rw [ValidatorSet.totalWeight_eq_weight]
    exact hsum
  have hheavy : vs.totalWeight ≤ vs.len * vs.weightAt i := by
    have hsum := Finset.sum_le_card_nsmul (Finset.range vs.len) vs.weightAt _ hmax
    rw [Finset.card_range, nsmul_eq_mul, Nat.cast_id] at hsum
    rw [ValidatorSet.totalWeight_eq_weight]
    exact hsum
  rw [Finset.mem_range] at hi hj
  have heq : vs.weightAt i ≤ vs.weightAt j := by
    by_contra hlt
    obtain ⟨t, hge, hub, hturn⟩ := exists_turn hj s vs.totalWeight
    have hlead := (leads_of_agree hlight hj hheavy hi hagree (show t + 1 ≤ _ by omega)).2 t
      (Nat.lt_succ_self t)
    rw [hturn] at hlead
    exact not_leads_of_lt hi (by omega) hge hturn hlead
  intro x hx y hy
  have hx' := Finset.mem_range.mpr hx
  have hy' := Finset.mem_range.mpr hy
  have h₁ := hmin x hx'
  have h₂ := hmax x hx'
  have h₃ := hmin y hy'
  have h₄ := hmax y hy'
  omega

end rotation

end Schedule

/-- The regime that starts at `s` has equal weights and starts at a multiple of its length. -/
def EvenRegime (history : ValidatorSetHistory) (s : ℕ) : Prop :=
  (∀ w ∈ (history.setAt s).weights, ∀ w' ∈ (history.setAt s).weights, w = w') ∧
    (history.setAt s).len ∣ s

instance (history : ValidatorSetHistory) (s : ℕ) : Decidable (EvenRegime history s) :=
  have : DecidablePred fun w : UInt64 => ∀ w' ∈ (history.setAt s).weights, w = w' :=
    fun _ => List.decidableBAll _ _
  have : Decidable (∀ w ∈ (history.setAt s).weights, ∀ w' ∈ (history.setAt s).weights,
      w = w') := List.decidableBAll _ _
  inferInstanceAs (Decidable (_ ∧ _))

section
variable (history : ValidatorSetHistory)
  (nonempty : ∀ b ∈ history.boundaries, b.set.members ≠ [])

/-- In every view of the regime that starts at `s` the safety core and the pacemaker, whatever
views it was asked for before, name the same leader. -/
def LeadersAgree (s : ℕ) : Prop :=
  ∀ v, regimeStartFor history v = s → ∀ views : List ℕ,
    roundRobinLeader (history.setAt v) v =
      (((WeightedAccumulatorSelector.new history nonempty).asked views).leaderForView v).1

variable {history}

theorem len_setAt_pos (v : ℕ) (nonempty : ∀ b ∈ history.boundaries, b.set.members ≠ []) :
    0 < (history.setAt v).len :=
  List.length_pos_of_ne_nil (nonempty _ (List.get_mem _ _))

theorem weightAt_pos {vs : ValidatorSet} {x : ℕ} (hx : x < vs.len) : 0 < vs.weightAt x := by
  have hlt : x < vs.weights.length := vs.weights_length.symm ▸ hx
  have hne := vs.weights_ne_zero _ (List.getElem_mem hlt)
  rw [vs.weightAt_eq_getElem hlt]
  exact Nat.pos_of_ne_zero fun h0 => hne (UInt64.toNat_inj.mp h0)

theorem weights_eq_iff (vs : ValidatorSet) :
    (∀ w ∈ vs.weights, ∀ w' ∈ vs.weights, w = w') ↔
      ∀ x < vs.len, ∀ y < vs.len, vs.weightAt x = vs.weightAt y := by
  have hlen : vs.weights.length = vs.len := vs.weights_length
  constructor
  · intro h x hx y hy
    rw [vs.weightAt_eq_getElem (hlen.symm ▸ hx), vs.weightAt_eq_getElem (hlen.symm ▸ hy),
      h _ (List.getElem_mem _) _ (List.getElem_mem _)]
  · intro h w hw w' hw'
    obtain ⟨x, hx, rfl⟩ := List.getElem_of_mem hw
    obtain ⟨y, hy, rfl⟩ := List.getElem_of_mem hw'
    have heq := h x (hlen ▸ hx) y (hlen ▸ hy)
    rw [vs.weightAt_eq_getElem hx, vs.weightAt_eq_getElem hy] at heq
    exact UInt64.toNat_inj.mp heq

theorem get?_eq_get?_iff {vs : ValidatorSet} {x y : ℕ} (hx : x < vs.len) :
    vs.get? x = vs.get? y ↔ y = x := by
  obtain ⟨id, hid⟩ := vs.exists_indexOf hx
  have hget : vs.get? x = some id := (vs.indexOf_eq_some_iff id x).mp hid
  rw [hget, eq_comm]
  constructor
  · intro hy
    have hid' := (vs.indexOf_eq_some_iff id y).mpr hy
    exact Option.some.inj (hid'.symm.trans hid)
  · rintro rfl
    exact hget

/-- The two leaders of a view belong to one set, so they agree when their indices do. -/
theorem leadersAgree_iff {s : ℕ} : LeadersAgree history nonempty s ↔
    ∀ v, regimeStartFor history v = s →
      (replay (history.setAt s) (v + 1 - s)).2 = v % (history.setAt s).len := by
  unfold LeadersAgree
  simp only [WeightedAccumulatorSelector.leaderForView_asked, forall_const]
  refine forall_congr' fun v => ?_
  refine forall_congr' fun hv => ?_
  have hset : history.setAt v = history.setAt s := by rw [← hv, setAt_regimeStartFor]
  have hpos := len_setAt_pos s nonempty
  unfold scheduledLeader roundRobinLeader
  rw [hset, hv]
  exact get?_eq_get?_iff (Nat.mod_lt _ hpos)

theorem leadersAgree_of_evenRegime {s : ℕ} (h : EvenRegime history s) :
    LeadersAgree history nonempty s := by
  rw [leadersAgree_iff]
  intro v hv
  obtain ⟨hweights, hdvd⟩ := h
  have hpos := len_setAt_pos s nonempty
  have hle : s ≤ v := hv ▸ regimeStartFor_le history v
  have hrounds : v + 1 - s = (v - s) + 1 := by omega
  rw [hrounds, Schedule.replay_of_equal (fun x hx => (weights_eq_iff _).mp hweights x hx 0 hpos)
    hpos (weightAt_pos hpos)]
  refine (Nat.modEq_iff_dvd' (Nat.sub_le v s)).mpr ?_
  rwa [Nat.sub_sub_self hle]

theorem evenRegime_of_leadersAgree {s : ℕ}
    (hlong : ∀ t < (history.setAt s).totalWeight + (history.setAt s).len,
      regimeStartFor history (s + t) = s) (h : LeadersAgree history nonempty s) :
    EvenRegime history s := by
  have hpos := len_setAt_pos s nonempty
  have hagree : ∀ t < (history.setAt s).totalWeight + (history.setAt s).len,
      (replay (history.setAt s) (t + 1)).2 = (s + t) % (history.setAt s).len := by
    intro t ht
    have hv := (leadersAgree_iff nonempty).mp h (s + t) (hlong t ht)
    rwa [show s + t + 1 - s = t + 1 by omega] at hv
  have hequal := Schedule.equal_of_agree hpos hagree
  refine ⟨(weights_eq_iff _).mpr hequal, Nat.dvd_of_mod_eq_zero ?_⟩
  have hfirst := hagree 0 (by omega)
  rw [Schedule.replay_of_equal (fun x hx => hequal x hx 0 hpos) hpos (weightAt_pos hpos),
    Nat.zero_mod, Nat.add_zero] at hfirst
  exact hfirst.symm

/-- The schedules coincide in every regime of equal weights that starts at a multiple of the
set's length, and a regime longer than its total weight and length has no other way. -/
theorem leadersAgree_iff_evenRegime (s : ℕ) :
    (EvenRegime history s → LeadersAgree history nonempty s) ∧
      ((∀ t < (history.setAt s).totalWeight + (history.setAt s).len,
          regimeStartFor history (s + t) = s) →
        (LeadersAgree history nonempty s ↔ EvenRegime history s)) :=
  ⟨leadersAgree_of_evenRegime nonempty, fun hlong =>
    ⟨evenRegime_of_leadersAgree nonempty hlong, leadersAgree_of_evenRegime nonempty⟩⟩

end

namespace Sample

theorem leadersAgree_validators :
    EvenRegime (.fromGenesis validators) 0 ∧
      LeadersAgree (.fromGenesis validators) (by decide) 0 := by
  have heven : EvenRegime (.fromGenesis validators) 0 := by decide +kernel
  exact ⟨heven, (leadersAgree_iff_evenRegime (by decide) 0).1 heven⟩

/-- Two validators, the first with twice the weight of the second. -/
def unevenValidators : ValidatorSet where
  members := [1, 2]
  weights := [2, 1]
  sorted := by decide
  weights_length := by decide
  weights_ne_zero := by simp
  length_lt := by decide

/-- In view 3 the safety core expects validator 2 and the pacemaker announces validator 1. -/
theorem leaders_differ_uneven :
    roundRobinLeader ((ValidatorSetHistory.fromGenesis unevenValidators).setAt 3) 3 = some 2 ∧
      ((WeightedAccumulatorSelector.new (.fromGenesis unevenValidators)
        (by decide)).leaderForView 3).1 = some 1 := by
  constructor <;> decide +kernel

end Sample

end Boule
