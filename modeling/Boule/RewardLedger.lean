import Boule.CheckedArith
import Boule.Lib.LazyIndex
import Boule.Rotation

/-! The reward ledger: one index of what a unit of stake has earned so far, what each node was
settled at, and its balance. The exact ledger is the same one over unbounded numbers. -/
namespace Boule

def indexScale : ℕ := 1000000000000000000

structure RewardLedger where
  index : ℕ
  lastIndex : Table NodeId ℕ
  balance : Table NodeId ℕ
  deriving DecidableEq

namespace RewardLedger

def new : RewardLedger := ⟨0, ∅, ∅⟩

def balanceOf (l : RewardLedger) (node : NodeId) : ℕ := (l.balance.get? node).getD 0

/-- The index that a node was settled at. -/
def lastOf (l : RewardLedger) (node : NodeId) : ℕ := (l.lastIndex.get? node).getD 0

/-- `balance.entry(node)` raised by a saturating addition. -/
def credit (l : RewardLedger) (node : NodeId) (amount : ℕ) : RewardLedger :=
  { l with balance := l.balance.insert node (saturatingAddU64 (l.balanceOf node) amount) }

/-- `index += issuance * INDEX_SCALE / total_stake`, where there is something to share. -/
def grow (l : RewardLedger) (issuance totalStake : ℕ) : Option RewardLedger :=
  if 0 < totalStake ∧ 0 < issuance then do
    let scaled ← checkedMulU128 issuance indexScale
    let index ← checkedAddU128 l.index (scaled / totalStake)
    return { l with index }
  else some l

def accrueBlock (l : RewardLedger) (proposer : NodeId) (issuance bonus totalStake : ℕ) :
    Option RewardLedger := do
  let grown ← l.grow issuance totalStake
  return if 0 < bonus then grown.credit proposer bonus else grown

/-- The `u128` that `settle` and `claimable` compute, before they cast it to a `u64`. -/
def unsettled (l : RewardLedger) (node : NodeId) (stake : ℕ) : Option ℕ :=
  if l.lastOf node < l.index ∧ 0 < stake then do
    let product ← checkedMulU128 stake (l.index - l.lastOf node)
    return product / indexScale
  else some 0

def settle (l : RewardLedger) (node : NodeId) (stake : ℕ) : Option RewardLedger := do
  let earned ← l.unsettled node stake
  let paid := if 0 < earned then l.credit node (earned % 2 ^ 64) else l
  return { paid with lastIndex := paid.lastIndex.insert node paid.index }

def claimable (l : RewardLedger) (node : NodeId) (stake : ℕ) : Option ℕ := do
  let earned ← l.unsettled node stake
  return saturatingAddU64 (l.balanceOf node) (earned % 2 ^ 64)

/-! ### Without bounds -/

def creditExact (l : RewardLedger) (node : NodeId) (amount : ℕ) : RewardLedger :=
  if 0 < amount then { l with balance := l.balance.insert node (l.balanceOf node + amount) } else l

/-- What a unit of stake earns from a block, in parts. -/
def growth (issuance totalStake : ℕ) : ℕ := issuance * indexScale / totalStake

def accrueExact (l : RewardLedger) (proposer : NodeId) (issuance bonus totalStake : ℕ) :
    RewardLedger :=
  { l with index := l.index + growth issuance totalStake }.creditExact proposer bonus

/-- What a node has earned since it was settled. -/
def earned (l : RewardLedger) (node : NodeId) (stake : ℕ) : ℕ :=
  stake * (l.index - l.lastOf node) / indexScale

/-- What a node is owed in all. -/
def due (l : RewardLedger) (node : NodeId) (stake : ℕ) : ℕ :=
  l.balanceOf node + l.earned node stake

def settleExact (l : RewardLedger) (node : NodeId) (stake : ℕ) : RewardLedger :=
  { l.creditExact node (l.earned node stake) with
    lastIndex := l.lastIndex.insert node l.index }

variable {l : RewardLedger} {node : NodeId} {stake : ℕ}

theorem indexScale_pos : 0 < indexScale := by decide

@[simp] theorem balanceOf_index (l : RewardLedger) (index : ℕ) (node : NodeId) :
    balanceOf { l with index } node = l.balanceOf node := rfl

@[simp] theorem lastOf_index (l : RewardLedger) (index : ℕ) (node : NodeId) :
    lastOf { l with index } node = l.lastOf node := rfl

theorem balanceOf_creditExact (l : RewardLedger) (node : NodeId) (amount : ℕ) (v : NodeId) :
    (l.creditExact node amount).balanceOf v = l.balanceOf v + if v = node then amount else 0 := by
  unfold creditExact
  split_ifs with hpos hv hv
  · unfold balanceOf
    simp only
    rw [hv, Table.get?_insert, if_pos rfl, Option.getD_some]
  · unfold balanceOf
    simp only
    rw [Table.get?_insert, if_neg hv, Nat.add_zero]
  · omega
  · rw [Nat.add_zero]

@[simp] theorem index_creditExact (l : RewardLedger) (node : NodeId) (amount : ℕ) :
    (l.creditExact node amount).index = l.index := by
  unfold creditExact
  split_ifs <;> rfl

@[simp] theorem lastOf_creditExact (l : RewardLedger) (node : NodeId) (amount : ℕ) (v : NodeId) :
    (l.creditExact node amount).lastOf v = l.lastOf v := by
  unfold creditExact
  split_ifs <;> rfl

theorem credit_eq {amount : ℕ} (hpos : 0 < amount) (hfit : l.balanceOf node + amount < 2 ^ 64) :
    l.credit node amount = l.creditExact node amount := by
  have hsum : saturatingAddU64 (l.balanceOf node) amount = l.balanceOf node + amount := by
    unfold saturatingAddU64
    omega
  rw [credit, creditExact, if_pos hpos, hsum]

theorem lastOf_settleExact (l : RewardLedger) (node : NodeId) (stake : ℕ) (v : NodeId) :
    (l.settleExact node stake).lastOf v = if v = node then l.index else l.lastOf v := by
  unfold settleExact lastOf
  simp only
  rw [Table.get?_insert]
  split_ifs <;> rfl

@[simp] theorem index_settleExact (l : RewardLedger) (node : NodeId) (stake : ℕ) :
    (l.settleExact node stake).index = l.index :=
  index_creditExact l node _

theorem balanceOf_settleExact (l : RewardLedger) (node : NodeId) (stake : ℕ) (v : NodeId) :
    (l.settleExact node stake).balanceOf v =
      l.balanceOf v + if v = node then l.earned node stake else 0 :=
  balanceOf_creditExact l node _ v

theorem earned_of_settled (h : l.lastOf node = l.index) (stake : ℕ) : l.earned node stake = 0 := by
  rw [earned, h, Nat.sub_self, Nat.mul_zero, Nat.zero_div]

/-- All balances. -/
def paid (l : RewardLedger) : ℕ := l.balance.sumOf fun _ b => b

theorem share_balance (l : RewardLedger) (node : NodeId) :
    l.balance.share (fun _ b => b) node = l.balanceOf node := by
  unfold Table.share balanceOf
  cases l.balance.get? node <;> rfl

theorem paid_creditExact (l : RewardLedger) (node : NodeId) (amount : ℕ) :
    (l.creditExact node amount).paid = l.paid + amount := by
  unfold creditExact
  split_ifs with hpos
  · have hsum := l.balance.sumOf_insert (f := fun _ b => b) node (l.balanceOf node + amount)
    rw [share_balance] at hsum
    unfold paid
    simp only
    omega
  · omega

theorem paid_accrueExact (l : RewardLedger) (proposer : NodeId) (issuance bonus totalStake : ℕ) :
    (l.accrueExact proposer issuance bonus totalStake).paid = l.paid + bonus := by
  have hindex : ∀ index, paid { l with index } = l.paid := fun _ => rfl
  rw [accrueExact, paid_creditExact, hindex]

theorem paid_settleExact (l : RewardLedger) (node : NodeId) (stake : ℕ) :
    (l.settleExact node stake).paid = l.paid + l.earned node stake :=
  paid_creditExact l node _

/-! ### Where the bounds do not matter -/

theorem earned_le_due (l : RewardLedger) (node : NodeId) (stake : ℕ) :
    l.earned node stake ≤ l.due node stake :=
  Nat.le_add_left ..

/-- Units that fit in a `u64` come from a product that fits in a `u128`. -/
theorem product_lt (h : l.earned node stake < 2 ^ 64) :
    stake * (l.index - l.lastOf node) < 2 ^ 128 := by
  have hlt := (Nat.div_lt_iff_lt_mul indexScale_pos).mp h
  have hroom : 2 ^ 64 * indexScale < 2 ^ 128 := by decide
  omega

theorem earned_of_idle (h : ¬ (l.lastOf node < l.index ∧ 0 < stake)) : l.earned node stake = 0 := by
  have hproduct : stake * (l.index - l.lastOf node) = 0 := by
    rcases Nat.lt_or_ge (l.lastOf node) l.index with hlt | hge
    · have hstake : stake = 0 := by omega
      rw [hstake, Nat.zero_mul]
    · rw [Nat.sub_eq_zero_of_le hge, Nat.mul_zero]
  rw [earned, hproduct, Nat.zero_div]

theorem unsettled_eq : l.unsettled node stake =
    if stake * (l.index - l.lastOf node) < 2 ^ 128 then some (l.earned node stake) else none := by
  unfold unsettled
  by_cases hactive : l.lastOf node < l.index ∧ 0 < stake
  · rw [if_pos hactive, checkedMulU128]
    split_ifs <;> rfl
  · have hzero := earned_of_idle hactive
    rw [if_neg hactive, if_pos (product_lt (by omega)), hzero]

theorem unsettled_of_lt (h : l.earned node stake < 2 ^ 64) :
    l.unsettled node stake = some (l.earned node stake) := by
  rw [unsettled_eq, if_pos (product_lt h)]

/-- A node can claim what it is due exactly when that fits in a `u64`. -/
theorem claimable_eq_due_iff : l.claimable node stake = some (l.due node stake) ↔
    l.due node stake < 2 ^ 64 := by
  have hle := l.earned_le_due node stake
  unfold claimable
  rw [unsettled_eq]
  split_ifs with hfit
  · simp only [Option.bind_eq_bind, Option.bind_some, Option.pure_def, Option.some_inj]
    unfold saturatingAddU64 due at *
    omega
  · refine iff_of_false (fun h => by cases h) fun h => hfit (product_lt ?_)
    omega

/-- A node that was just settled can claim its balance, whatever its stake. -/
theorem claimable_of_settled (h : l.lastOf node = l.index) (hfit : l.balanceOf node < 2 ^ 64)
    (stake : ℕ) : l.claimable node stake = some (l.balanceOf node) := by
  have hearned := earned_of_settled h stake
  have hdue : l.due node stake = l.balanceOf node := by rw [due, hearned, Nat.add_zero]
  rw [← hdue]
  exact claimable_eq_due_iff.mpr (by omega)

theorem balanceOf_credit_lt (l : RewardLedger) (node : NodeId) (amount : ℕ) :
    (l.credit node amount).balanceOf node < 2 ^ 64 := by
  unfold credit balanceOf
  simp only
  rw [Table.get?_insert, if_pos rfl, Option.getD_some]
  unfold saturatingAddU64
  omega

/-- Right after a settlement, whatever came of it, a node can claim its balance. -/
theorem claimable_settle (hfit : l.balanceOf node < 2 ^ 64) (stake stake' : ℕ) :
    (l.settle node stake).bind (fun l' => l'.claimable node stake') =
      (l.settle node stake).map fun l' => l'.balanceOf node := by
  unfold settle
  cases l.unsettled node stake with
  | none => rfl
  | some earned =>
    simp only [Option.bind_eq_bind, Option.bind_some, Option.pure_def, Option.map_some]
    apply claimable_of_settled
    · unfold lastOf
      simp only
      rw [Table.get?_insert, if_pos rfl, Option.getD_some]
    · by_cases hpos : 0 < earned
      · rw [if_pos hpos]
        exact l.balanceOf_credit_lt node _
      · rw [if_neg hpos]
        exact hfit

theorem settle_eq (h : l.due node stake < 2 ^ 64) :
    l.settle node stake = some (l.settleExact node stake) := by
  have hle := l.earned_le_due node stake
  have hmod : l.earned node stake % 2 ^ 64 = l.earned node stake := Nat.mod_eq_of_lt (by omega)
  have hpaid : (if 0 < l.earned node stake then l.credit node (l.earned node stake) else l) =
      l.creditExact node (l.earned node stake) := by
    by_cases hpos : 0 < l.earned node stake
    · rw [if_pos hpos, credit_eq hpos h]
    · rw [if_neg hpos, creditExact, if_neg hpos]
  have hlast : (l.creditExact node (l.earned node stake)).lastIndex = l.lastIndex := by
    unfold creditExact
    split_ifs <;> rfl
  unfold settle settleExact
  rw [unsettled_of_lt (by omega)]
  simp only [Option.bind_eq_bind, Option.bind_some, Option.pure_def]
  rw [hmod, hpaid, hlast, index_creditExact]

theorem grow_eq {issuance totalStake : ℕ} (h : issuance < 2 ^ 64) (hindex : l.index < 2 ^ 128) :
    l.grow issuance totalStake = if l.index + growth issuance totalStake < 2 ^ 128 then
      some { l with index := l.index + growth issuance totalStake } else none := by
  have hscaled : issuance * indexScale < 2 ^ 128 := by
    unfold indexScale
    omega
  unfold grow
  by_cases hactive : 0 < totalStake ∧ 0 < issuance
  · have hmul : checkedMulU128 issuance indexScale = some (issuance * indexScale) := if_pos hscaled
    rw [if_pos hactive, hmul, Option.bind_eq_bind, Option.bind_some]
    by_cases hfit : l.index + growth issuance totalStake < 2 ^ 128
    · have hadd : checkedAddU128 l.index (issuance * indexScale / totalStake) =
        some (l.index + growth issuance totalStake) := if_pos hfit
      rw [hadd, if_pos hfit]
      rfl
    · have hadd : checkedAddU128 l.index (issuance * indexScale / totalStake) = none :=
        if_neg hfit
      rw [hadd, if_neg hfit]
      rfl
  · have hgrowth : growth issuance totalStake = 0 := by
      unfold growth
      rcases Nat.eq_zero_or_pos totalStake with htotal | htotal
      · rw [htotal, Nat.div_zero]
      · have hzero : issuance = 0 := by omega
        rw [hzero, Nat.zero_mul, Nat.zero_div]
    rw [if_neg hactive, hgrowth, Nat.add_zero, if_pos hindex]

theorem index_accrueExact (l : RewardLedger) (proposer : NodeId) (issuance bonus totalStake : ℕ) :
    (l.accrueExact proposer issuance bonus totalStake).index =
      l.index + growth issuance totalStake := by
  rw [accrueExact, index_creditExact]

theorem lastOf_accrueExact (l : RewardLedger) (proposer : NodeId) (issuance bonus totalStake : ℕ)
    (v : NodeId) : (l.accrueExact proposer issuance bonus totalStake).lastOf v = l.lastOf v := by
  rw [accrueExact, lastOf_creditExact, lastOf_index]

theorem balanceOf_accrueExact (l : RewardLedger) (proposer : NodeId)
    (issuance bonus totalStake : ℕ) (v : NodeId) :
    (l.accrueExact proposer issuance bonus totalStake).balanceOf v =
      l.balanceOf v + if v = proposer then bonus else 0 := by
  rw [accrueExact, balanceOf_creditExact, balanceOf_index]

/-- A block is accrued exactly where the new index and the proposer's bonus fit. -/
theorem accrueBlock_eq {proposer : NodeId} {issuance bonus totalStake : ℕ}
    (hissuance : issuance < 2 ^ 64) (hindex : l.index + growth issuance totalStake < 2 ^ 128)
    (hbonus : l.balanceOf proposer + bonus < 2 ^ 64) :
    l.accrueBlock proposer issuance bonus totalStake =
      some (l.accrueExact proposer issuance bonus totalStake) := by
  unfold accrueBlock accrueExact
  rw [grow_eq hissuance (by omega), if_pos hindex]
  simp only [Option.bind_eq_bind, Option.bind_some, Option.pure_def]
  by_cases hpos : 0 < bonus
  · rw [← balanceOf_index l (l.index + growth issuance totalStake)] at hbonus
    rw [if_pos hpos, credit_eq hpos hbonus]
  · rw [if_neg hpos, creditExact, if_neg hpos]

theorem index_lt_of_accrueBlock {l' : RewardLedger} {proposer : NodeId}
    {issuance bonus totalStake : ℕ} (hissuance : issuance < 2 ^ 64) (hindex : l.index < 2 ^ 128)
    (h : l.accrueBlock proposer issuance bonus totalStake = some l') :
    l.index + growth issuance totalStake < 2 ^ 128 := by
  by_contra hfit
  unfold accrueBlock at h
  rw [grow_eq hissuance hindex, if_neg hfit] at h
  cases h

end RewardLedger

end Boule
