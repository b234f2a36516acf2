import Boule.HotStuff.Core

/-! The two back-offs: views between requests for a missing block, and the duration of a view. -/
namespace Boule

/-! ### Requests for a missing block -/

/-- The bits that the shift loses do not matter: none is lost, or those that stay reach `max`. -/
def KeepsBits (attempts initial max : ℕ) : Prop :=
  initial * 2 ^ (attempts - 1) < 2 ^ 64 ∨
    max ≤ initial % 2 ^ (64 - min (attempts - 1) 63) * 2 ^ min (attempts - 1) 63

instance (attempts initial max : ℕ) : Decidable (KeepsBits attempts initial max) :=
  inferInstanceAs (Decidable (_ ∨ _))

theorem shifted_eq (initial : ℕ) {k : ℕ} (hk : k ≤ 64) :
    initial * 2 ^ k % 2 ^ 64 = initial % 2 ^ (64 - k) * 2 ^ k := by
  have hpow : 2 ^ 64 = 2 ^ (64 - k) * 2 ^ k := by
    rw [← pow_add, Nat.sub_add_cancel hk]
  rw [hpow, Nat.mul_mod_mul_right]

theorem blockSyncBackoffViews_eq {attempts : ℕ} (ha : 1 ≤ attempts) (initial max : ℕ) :
    blockSyncBackoffViews attempts initial max =
      min (initial % 2 ^ (64 - min (attempts - 1) 63) * 2 ^ min (attempts - 1) 63) max := by
  unfold blockSyncBackoffViews
  by_cases hzero : initial = 0
  · rw [if_pos (by simp [hzero]), hzero, Nat.zero_mod, Nat.zero_mul, Nat.zero_min]
  · have hne : attempts ≠ 0 := by omega
    rw [if_neg (by simp [hzero, hne]), ← shifted_eq initial (by omega)]

/-- A product of which the shift loses no bit has at most 63 doublings. -/
theorem kept_of_lt {attempts initial : ℕ} (h : initial * 2 ^ (attempts - 1) < 2 ^ 64) :
    initial % 2 ^ (64 - min (attempts - 1) 63) * 2 ^ min (attempts - 1) 63 =
      initial * 2 ^ (attempts - 1) := by
  by_cases hzero : initial = 0
  · rw [hzero, Nat.zero_mod, Nat.zero_mul, Nat.zero_mul]
  have hle : 2 ^ (attempts - 1) ≤ initial * 2 ^ (attempts - 1) :=
    Nat.le_mul_of_pos_left _ (Nat.pos_of_ne_zero hzero)
  have hlt : attempts - 1 < 64 := (Nat.pow_lt_pow_iff_right (by omega)).mp (hle.trans_lt h)
  have hmin : min (attempts - 1) 63 = attempts - 1 := by omega
  rw [hmin, ← shifted_eq initial (by omega), Nat.mod_eq_of_lt h]

theorem blockSyncBackoffViews_eq_iff {attempts max : ℕ} (ha : 1 ≤ attempts) (initial : ℕ)
    (hmax : max < 2 ^ 64) :
    blockSyncBackoffViews attempts initial max = min max (initial * 2 ^ (attempts - 1)) ↔
      KeepsBits attempts initial max := by
  rw [blockSyncBackoffViews_eq ha, KeepsBits]
  by_cases hfit : initial * 2 ^ (attempts - 1) < 2 ^ 64
  · rw [kept_of_lt hfit]
    exact iff_of_true (Nat.min_comm ..) (Or.inl hfit)
  · have hreached : min max (initial * 2 ^ (attempts - 1)) = max := by omega
    rw [hreached, or_iff_right hfit]
    exact min_eq_right_iff

theorem blockSyncBackoffViews_le {a b initial max : ℕ} (ha : 1 ≤ a) (hab : a ≤ b)
    (hmax : max < 2 ^ 64) (hka : KeepsBits a initial max) (hkb : KeepsBits b initial max) :
    blockSyncBackoffViews a initial max ≤ blockSyncBackoffViews b initial max := by
  have hpow : initial * 2 ^ (a - 1) ≤ initial * 2 ^ (b - 1) :=
    Nat.mul_le_mul_left _ (Nat.pow_le_pow_right (by omega) (by omega))
  rw [(blockSyncBackoffViews_eq_iff ha initial hmax).mpr hka,
    (blockSyncBackoffViews_eq_iff (ha.trans hab) initial hmax).mpr hkb]
  omega

/-! ### The duration of a view -/

/-- `std::time::Duration`, at most `u64::MAX` seconds and 999,999,999 nanoseconds. -/
structure Duration where
  nanos : ℕ
  nanos_lt : nanos < 2 ^ 64 * 10 ^ 9

namespace Duration

def checkedMul (d : Duration) (n : ℕ) : Option Duration :=
  if h : d.nanos * n < 2 ^ 64 * 10 ^ 9 then some { nanos := d.nanos * n, nanos_lt := h } else none

/-- `Ord::min` -/
def lesser (d d' : Duration) : Duration := if d'.nanos < d.nanos then d' else d

theorem nanos_lesser (d d' : Duration) : (d.lesser d').nanos = min d.nanos d'.nanos := by
  unfold lesser
  split_ifs with h
  · exact (Nat.min_eq_right h.le).symm
  · exact (Nat.min_eq_left (Nat.le_of_not_lt h)).symm

end Duration

/-- `u64::checked_shl` rejects amounts from 64 on, and does not notice lost bits. -/
def checkedShlU64 (a shift : ℕ) : Option ℕ :=
  if shift < 64 then some (a * 2 ^ shift % 2 ^ 64) else none

/-- `u32::try_from(f).ok()` -/
def tryFromU64 (f : ℕ) : Option ℕ := if f < 2 ^ 32 then some f else none

structure ExponentialBackoff where
  base : Duration
  max : Duration

namespace ExponentialBackoff

def factor (consecutiveFailures : ℕ) : ℕ :=
  ((checkedShlU64 1 (min consecutiveFailures 32)).bind tryFromU64).getD (2 ^ 32 - 1)

def timeout (p : ExponentialBackoff) (consecutiveFailures : ℕ) : Duration :=
  ((p.base.checkedMul (factor consecutiveFailures)).getD p.max).lesser p.max

/-- The shift loses no bit. -/
theorem checkedShl_one (n : ℕ) : checkedShlU64 1 (min n 32) = some (2 ^ min n 32) := by
  have hlt : 2 ^ min n 32 < 2 ^ 64 := Nat.pow_lt_pow_right (by omega) (by omega)
  unfold checkedShlU64
  rw [if_pos (by omega), Nat.one_mul, Nat.mod_eq_of_lt hlt]

theorem factor_eq (n : ℕ) : factor n = min (2 ^ n) (2 ^ 32 - 1) := by
  unfold factor tryFromU64
  rw [checkedShl_one, Option.bind_some]
  by_cases hn : n < 32
  · have hmin : min n 32 = n := by omega
    have hlt : 2 ^ n < 2 ^ 32 := Nat.pow_lt_pow_right (by omega) hn
    rw [hmin, if_pos hlt, Option.getD_some]
    omega
  · have hmin : min n 32 = 32 := by omega
    have hle : 2 ^ 32 ≤ 2 ^ n := Nat.pow_le_pow_right (by omega) (by omega)
    rw [hmin, if_neg (Nat.lt_irrefl _), Option.getD_none]
    omega

theorem nanos_timeout (p : ExponentialBackoff) (n : ℕ) :
    (p.timeout n).nanos = min p.max.nanos (p.base.nanos * min (2 ^ n) (2 ^ 32 - 1)) := by
  have hmax := p.max.nanos_lt
  unfold timeout Duration.checkedMul
  rw [factor_eq, Duration.nanos_lesser]
  split_ifs with h
  · exact Nat.min_comm ..
  · rw [Option.getD_none]
    omega

theorem timeout_mono (p : ExponentialBackoff) {m n : ℕ} (h : m ≤ n) :
    (p.timeout m).nanos ≤ (p.timeout n).nanos := by
  have hpow : 2 ^ m ≤ 2 ^ n := Nat.pow_le_pow_right (by omega) h
  have hmul : p.base.nanos * min (2 ^ m) (2 ^ 32 - 1) ≤
      p.base.nanos * min (2 ^ n) (2 ^ 32 - 1) := Nat.mul_le_mul_left _ (by omega)
  rw [nanos_timeout, nanos_timeout]
  omega

theorem base_le_timeout {p : ExponentialBackoff} (h : p.base.nanos ≤ p.max.nanos) (n : ℕ) :
    p.base.nanos ≤ (p.timeout n).nanos := by
  have hpow : 1 ≤ 2 ^ n := Nat.one_le_two_pow
  have hmul : p.base.nanos ≤ p.base.nanos * min (2 ^ n) (2 ^ 32 - 1) :=
    Nat.le_mul_of_pos_right _ (by omega)
  rw [nanos_timeout]
  omega

end ExponentialBackoff

/-- The back-off of the requests is the doubled one exactly where no bit that matters is lost, and
there it does not shrink; that of the views is the doubled one throughout. -/
theorem backoff_doubles_iff (initial max : ℕ) (p : ExponentialBackoff) :
    (∀ attempts, 1 ≤ attempts → attempts < 2 ^ 32 → initial < 2 ^ 64 → max < 2 ^ 64 →
        (blockSyncBackoffViews attempts initial max = min max (initial * 2 ^ (attempts - 1)) ↔
          KeepsBits attempts initial max)) ∧
      (∀ a b, 1 ≤ a → a ≤ b → b < 2 ^ 32 → initial < 2 ^ 64 → max < 2 ^ 64 →
        KeepsBits a initial max → KeepsBits b initial max →
          blockSyncBackoffViews a initial max ≤ blockSyncBackoffViews b initial max) ∧
      (∀ attempts, blockSyncBackoffViews attempts 0 max = 0) ∧
      (p.base.nanos ≤ p.max.nanos → ∀ n,
        (p.timeout n).nanos = min p.max.nanos (p.base.nanos * min (2 ^ n) (2 ^ 32 - 1)) ∧
          (∀ m ≤ n, (p.timeout m).nanos ≤ (p.timeout n).nanos) ∧
          p.base.nanos ≤ (p.timeout n).nanos ∧
          checkedShlU64 1 (min n 32) = some (2 ^ min n 32)) := by
  refine ⟨?_, ?_, ?_, ?_⟩
  · intro attempts ha _ _ hmax
    exact blockSyncBackoffViews_eq_iff ha initial hmax
  · intro a b ha hab _ _ hmax hka hkb
    exact blockSyncBackoffViews_le ha hab hmax hka hkb
  · intro attempts
    exact if_pos (by simp)
  · intro hle n
    exact ⟨p.nanos_timeout n, fun m hm => p.timeout_mono hm, p.base_le_timeout hle n,
      ExponentialBackoff.checkedShl_one n⟩

namespace Sample

/-- Two views are doubled up to 16, and the 64th request is not held back at all. -/
theorem backoff_drops_to_zero :
    blockSyncBackoffViews 64 2 16 ≠ min 16 (2 * 2 ^ (64 - 1)) ∧
      blockSyncBackoffViews 64 2 16 < blockSyncBackoffViews 63 2 16 := by
  decide

end Sample
end Boule
