import Boule.Reth.WeightProof

/-! What the pending updates of a ledger tell of its stakes. -/
namespace Boule

/-- What an operation makes of a stake. -/
def StakeOp.on (stake : ℕ) : StakeOp → ℕ
  | .bond amount => saturatingAddU64 stake amount
  | .unbond amount => stake - amount

/-- The weight that the last update for the node reports. -/
def lastUpdate (updates : List ValidatorUpdate) (node : NodeId) : Option ℕ :=
  ((updates.filter (·.nodeId = node)).getLast?).map ValidatorUpdate.weight

theorem lastUpdate_append (updates : List ValidatorUpdate) (u : ValidatorUpdate) (node : NodeId) :
    lastUpdate (updates ++ [u]) node =
      if u.nodeId = node then some u.weight else lastUpdate updates node := by
  unfold lastUpdate
  rw [List.filter_append]
  split_ifs with h
  · simp [h]
  · simp [h]

theorem get?_reconcile (updates : List ValidatorUpdate) (t : Table NodeId ℕ) (node : NodeId) :
    (updates.foldl (fun t u => t.insert u.nodeId u.weight) t).get? node =
      (lastUpdate updates node).or (t.get? node) := by
  induction updates using List.reverseRecOn with
  | nil => rfl
  | append_singleton updates u ih =>
    rw [List.foldl_append, List.foldl_cons, List.foldl_nil, Table.get?_insert, lastUpdate_append,
      ih]
    by_cases h : node = u.nodeId
    · simp [h]
    · rw [if_neg h, if_neg (Ne.symm h)]

namespace BondedStakeLedger
variable {l : BondedStakeLedger}

/-- The last update that is pending for a validator reports its stake. -/
def Reports (l : BondedStakeLedger) : Prop :=
  ∀ node w, lastUpdate l.pending node = some w → w = l.stakeOf node

/-- An operation that leaves the stake changes nothing; another one is reported. -/
theorem apply_cases (l : BondedStakeLedger) (node : NodeId) (op : StakeOp) :
    (op.on (l.stakeOf node) = l.stakeOf node ∧ l.apply node op = l) ∨
      ((l.apply node op).pending = l.pending ++ [⟨node, op.on (l.stakeOf node)⟩] ∧
        ∀ v, (l.apply node op).stakeOf v =
          if v = node then op.on (l.stakeOf node) else l.stakeOf v) := by
  cases op with
  | bond amount =>
    unfold apply StakeOp.on
    by_cases hsame : saturatingAddU64 (l.stakeOf node) amount = l.stakeOf node
    · exact .inl ⟨hsame, if_pos hsame⟩
    · refine .inr ?_
      simp only [hsame, if_false, true_and]
      intro v
      unfold stakeOf
      rw [Table.get?_insert]
      split_ifs <;> rfl
  | unbond amount =>
    unfold apply StakeOp.on
    by_cases hmoved : min amount (l.stakeOf node) = 0
    · exact .inl ⟨by simp only; omega, if_pos hmoved⟩
    · have hnext : l.stakeOf node - min amount (l.stakeOf node) = l.stakeOf node - amount := by
        omega
      refine .inr ?_
      simp only [hmoved, if_false, hnext, true_and]
      intro v
      by_cases hzero : l.stakeOf node - amount = 0
      · simp only [hzero, if_true]
        unfold stakeOf
        rw [Table.get?_erase]
        split_ifs <;> rfl
      · simp only [hzero, if_false]
        unfold stakeOf
        rw [Table.get?_insert]
        split_ifs <;> rfl

theorem stakeOf_apply (l : BondedStakeLedger) (node : NodeId) (op : StakeOp) (v : NodeId) :
    (l.apply node op).stakeOf v = if v = node then op.on (l.stakeOf v) else l.stakeOf v := by
  rcases l.apply_cases node op with ⟨hsame, happly⟩ | ⟨-, hstake⟩
  · rw [happly]
    split_ifs with hv
    · rw [hv, hsame]
    · rfl
  · rw [hstake]
    split_ifs with hv
    · rw [hv]
    · rfl

theorem stakeOf_slash (l : BondedStakeLedger) (node v : NodeId) :
    (l.slash node).stakeOf v = if v = node then 0 else l.stakeOf v := by
  unfold slash stakeOf
  simp only
  rw [Table.get?_erase]
  split_ifs <;> rfl

theorem reports_slash (h : l.Reports) (node : NodeId) : (l.slash node).Reports := by
  intro v w hw
  rw [stakeOf_slash]
  unfold slash at hw
  by_cases hv : v = node
  · rw [if_pos hv]
    by_cases hactive : 0 < l.stakeOf node
    · simp only [hactive, if_true] at hw
      rw [lastUpdate_append, if_pos hv.symm] at hw
      exact (Option.some.inj hw).symm
    · simp only [hactive, if_false] at hw
      have hstake := h v w hw
      rw [hv] at hstake
      omega
  · rw [if_neg hv]
    by_cases hactive : 0 < l.stakeOf node
    · simp only [hactive, if_true] at hw
      rw [lastUpdate_append, if_neg (Ne.symm hv)] at hw
      exact h v w hw
    · simp only [hactive, if_false] at hw
      exact h v w hw

theorem stakeOf_foldl_slash (l : BondedStakeLedger) (slashed : List NodeId) (v : NodeId) :
    (slashed.foldl slash l).stakeOf v = if v ∈ slashed then 0 else l.stakeOf v := by
  induction slashed generalizing l with
  | nil => simp
  | cons node slashed ih =>
    rw [List.foldl_cons, ih, stakeOf_slash]
    by_cases hrest : v ∈ slashed
    · simp [hrest]
    · by_cases hv : v = node
      · simp [hv]
      · simp [hrest, hv]

theorem reports_foldl {α : Type} {f : BondedStakeLedger → α → BondedStakeLedger}
    (hf : ∀ l a, l.Reports → (f l a).Reports) (h : l.Reports) (as : List α) :
    (as.foldl f l).Reports := by
  induction as generalizing l with
  | nil => exact h
  | cons a as ih => exact ih (hf l a h)

end BondedStakeLedger

end Boule
