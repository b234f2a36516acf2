import Boule.Reth.DerivedWeights
import Boule.Reth.Execution

/-! Ledgers that bond the same stake and report the same changes, at whatever pace the changes are
taken. -/
namespace Boule

namespace BondedStakeLedger

/-- What a validator unbonds. -/
def queueOf (l : BondedStakeLedger) (v : NodeId) : List Unbonding := (l.unbonding.get? v).getD []

@[simp] theorem pending_advanceToHeight (l : BondedStakeLedger) (height : ℕ) :
    (l.advanceToHeight height).pending = l.pending := rfl

theorem queueOf_advanceToHeight (l : BondedStakeLedger) (height : ℕ) (v : NodeId) :
    (l.advanceToHeight height).queueOf v = (l.queueOf v).filter fun u => height < u.matureAt := by
  let left := fun (_ : NodeId) (queue : List Unbonding) =>
    let queue := queue.filter fun u => height < u.matureAt
    if queue.isEmpty then none else some queue
  unfold advanceToHeight queueOf
  simp only
  rw [Table.get?_foldl_toList (r := left)]
  · cases l.unbonding.get? v with
    | none => rfl
    | some queue =>
      simp only [left, Option.bind_some, Option.getD_some]
      split_ifs with hempty
      · rw [List.isEmpty_iff.mp hempty, Option.getD_none]
      · rfl
  · intro t e k
    simp only [left]
    by_cases hempty : (e.2.filter fun u => decide (height < u.matureAt)).isEmpty
    · rw [if_pos hempty, if_pos hempty, Table.get?_erase]
    · rw [if_neg hempty, if_neg hempty, Table.get?_insert]

@[simp] theorem currentHeight_apply (l : BondedStakeLedger) (node : NodeId) (op : StakeOp) :
    (l.apply node op).currentHeight = l.currentHeight := by
  cases op with
  | bond amount =>
    simp only [apply]
    split_ifs <;> rfl
  | unbond amount =>
    simp only [apply]
    split_ifs <;> rfl

theorem queueOf_apply (l : BondedStakeLedger) (node : NodeId) (op : StakeOp) (v : NodeId) :
    (l.apply node op).queueOf v = l.queueOf v ++
      match op with
      | .bond _ => []
      | .unbond amount =>
        if v = node ∧ min amount (l.stakeOf node) ≠ 0 then
          [⟨min amount (l.stakeOf node), saturatingAddU64 l.currentHeight unbondingDelay⟩]
        else [] := by
  cases op with
  | bond amount =>
    simp only [apply, List.append_nil]
    split_ifs <;> rfl
  | unbond amount =>
    simp only [apply]
    by_cases hmoved : min amount (l.stakeOf node) = 0
    · simp [hmoved]
    · rw [if_neg hmoved]
      unfold queueOf
      simp only
      rw [Table.get?_insert]
      by_cases hv : v = node
      · simp [hv, hmoved]
      · simp [hv]

/-- The change that an operation reports. -/
theorem pending_apply (l : BondedStakeLedger) (node : NodeId) (op : StakeOp) :
    (l.apply node op).pending = l.pending ++
      if op.on (l.stakeOf node) = l.stakeOf node then []
      else [⟨node, op.on (l.stakeOf node)⟩] := by
  cases op with
  | bond amount =>
    have hon : (StakeOp.bond amount).on (l.stakeOf node) =
        saturatingAddU64 (l.stakeOf node) amount := rfl
    rw [hon]
    simp only [apply]
    by_cases hsame : saturatingAddU64 (l.stakeOf node) amount = l.stakeOf node
    · rw [if_pos hsame, if_pos hsame, List.append_nil]
    · rw [if_neg hsame, if_neg hsame]
  | unbond amount =>
    have hon : (StakeOp.unbond amount).on (l.stakeOf node) = l.stakeOf node - amount := rfl
    have hnext : l.stakeOf node - min amount (l.stakeOf node) = l.stakeOf node - amount := by omega
    have hsame : l.stakeOf node - min amount (l.stakeOf node) = l.stakeOf node ↔
        min amount (l.stakeOf node) = 0 := by omega
    rw [hon, ← hnext]
    simp only [apply]
    by_cases hmoved : min amount (l.stakeOf node) = 0
    · rw [if_pos hmoved, if_pos (hsame.mpr hmoved), List.append_nil]
    · rw [if_neg hmoved, if_neg (hmoved ∘ hsame.mp)]

theorem queueOf_slash (l : BondedStakeLedger) (node v : NodeId) :
    (l.slash node).queueOf v = if v = node then [] else l.queueOf v := by
  unfold slash queueOf
  simp only
  rw [Table.get?_erase]
  split_ifs <;> rfl

theorem pending_slash (l : BondedStakeLedger) (node : NodeId) :
    (l.slash node).pending =
      l.pending ++ if 0 < l.stakeOf node then [⟨node, 0⟩] else [] := by
  unfold slash
  split_ifs
  · rfl
  · rw [List.append_nil]

@[simp] theorem currentHeight_slash (l : BondedStakeLedger) (node : NodeId) :
    (l.slash node).currentHeight = l.currentHeight := rfl

end BondedStakeLedger

/-- Two ledgers bond and unbond the same, and what they have reported, with the changes that were
taken before, is the same. -/
structure SameStake (taken : List ValidatorUpdate) (l : BondedStakeLedger)
    (taken' : List ValidatorUpdate) (l' : BondedStakeLedger) : Prop where
  stake : ∀ v, l.stakeOf v = l'.stakeOf v
  queue : ∀ v, l.queueOf v = l'.queueOf v
  updates : taken ++ l.pending = taken' ++ l'.pending

namespace SameStake
variable {taken taken' : List ValidatorUpdate} {l l' : BondedStakeLedger}

theorem symm (h : SameStake taken l taken' l') : SameStake taken' l' taken l where
  stake v := (h.stake v).symm
  queue v := (h.queue v).symm
  updates := h.updates.symm

theorem advanceToHeight (h : SameStake taken l taken' l') (height : ℕ) :
    SameStake taken (l.advanceToHeight height) taken' (l'.advanceToHeight height) where
  stake := h.stake
  queue v := by
    rw [BondedStakeLedger.queueOf_advanceToHeight, BondedStakeLedger.queueOf_advanceToHeight,
      h.queue v]
  updates := h.updates

theorem apply (h : SameStake taken l taken' l') (hheight : l.currentHeight = l'.currentHeight)
    (node : NodeId) (op : StakeOp) :
    SameStake taken (l.apply node op) taken' (l'.apply node op) where
  stake v := by
    rw [BondedStakeLedger.stakeOf_apply, BondedStakeLedger.stakeOf_apply, h.stake v]
  queue v := by
    rw [BondedStakeLedger.queueOf_apply, BondedStakeLedger.queueOf_apply, h.queue v,
      h.stake node, hheight]
  updates := by
    rw [BondedStakeLedger.pending_apply, BondedStakeLedger.pending_apply, h.stake node,
      ← List.append_assoc, ← List.append_assoc, h.updates]

theorem slash (h : SameStake taken l taken' l') (node : NodeId) :
    SameStake taken (l.slash node) taken' (l'.slash node) where
  stake v := by
    rw [BondedStakeLedger.stakeOf_slash, BondedStakeLedger.stakeOf_slash, h.stake v]
  queue v := by
    rw [BondedStakeLedger.queueOf_slash, BondedStakeLedger.queueOf_slash, h.queue v]
  updates := by
    rw [BondedStakeLedger.pending_slash, BondedStakeLedger.pending_slash, h.stake node,
      ← List.append_assoc, ← List.append_assoc, h.updates]

theorem slashes (h : SameStake taken l taken' l') (nodes : List NodeId) :
    SameStake taken (nodes.foldl .slash l) taken' (nodes.foldl .slash l') := by
  induction nodes generalizing l l' with
  | nil => exact h
  | cons node nodes ih => exact ih (h.slash node)

theorem applies (h : SameStake taken l taken' l') (hheight : l.currentHeight = l'.currentHeight)
    (ops : List (NodeId × StakeOp)) :
    SameStake taken (ops.foldl (fun l op => l.apply op.1 op.2) l) taken'
      (ops.foldl (fun l op => l.apply op.1 op.2) l') := by
  induction ops generalizing l l' with
  | nil => exact h
  | cons op ops ih =>
    refine ih (h.apply hheight op.1 op.2) ?_
    rw [BondedStakeLedger.currentHeight_apply, BondedStakeLedger.currentHeight_apply, hheight]

theorem absorb (h : SameStake taken l taken' l') (height : ℕ) (logs : List Log) :
    SameStake taken (l.absorb height logs) taken' (l'.absorb height logs) :=
  ((h.advanceToHeight height).applies rfl _).slashes _

/-- What is taken is no longer pending. -/
theorem take (h : SameStake taken l taken' l') :
    SameStake (taken ++ l.pending) l.takeUpdates.1 taken' l' where
  stake := h.stake
  queue := h.queue
  updates := by rw [← h.updates]; exact List.append_nil _

end SameStake

/-- No log concerns the stake of a validator. -/
def StakeQuiet (logs : List Log) : Prop :=
  parseStakeLogs (getLogs stakingAddress [depositTopic, withdrawTopic] logs) = [] ∧
    parseSlashedLogs (getLogs slashingAddress [slashedTopic] logs) = []

namespace BondedStakeLedger

theorem absorb_of_quiet {logs : List Log} (h : StakeQuiet logs) (l : BondedStakeLedger)
    (height : ℕ) : l.absorb height logs = l.advanceToHeight height := by
  unfold absorb
  rw [h.1, h.2]
  rfl

@[simp] theorem currentHeight_absorb (l : BondedStakeLedger) (height : ℕ) (logs : List Log) :
    (l.absorb height logs).currentHeight = height := by
  unfold absorb
  simp only
  rw [foldl_keeps currentHeight_slash, foldl_keeps fun l (op : NodeId × StakeOp) =>
    currentHeight_apply l op.1 op.2]
  rfl

/-- Nothing matures up to the height. -/
def NoneMature (l : BondedStakeLedger) (height : ℕ) : Prop :=
  ∀ v, ∀ u ∈ l.queueOf v, height < u.matureAt

theorem noneMature_advanceToHeight (l : BondedStakeLedger) (height : ℕ) :
    (l.advanceToHeight height).NoneMature height := by
  intro v u hu
  rw [queueOf_advanceToHeight] at hu
  exact of_decide_eq_true (List.mem_filter.mp hu).2

theorem NoneMature.slashes {l : BondedStakeLedger} {height : ℕ} (h : l.NoneMature height)
    (nodes : List NodeId) : (nodes.foldl slash l).NoneMature height := by
  induction nodes generalizing l with
  | nil => exact h
  | cons node nodes ih =>
    refine ih fun v u hu => ?_
    rw [queueOf_slash] at hu
    split_ifs at hu
    · cases hu
    · exact h v u hu

theorem NoneMature.queueOf_advanceToHeight {l : BondedStakeLedger} {height h : ℕ}
    (hnone : l.NoneMature height) (hle : h ≤ height) (v : NodeId) :
    (l.advanceToHeight h).queueOf v = l.queueOf v := by
  rw [BondedStakeLedger.queueOf_advanceToHeight]
  exact List.filter_eq_self.mpr fun u hu => decide_eq_true (hle.trans_lt (hnone v u hu))

end BondedStakeLedger

/-- Only the pace at which amounts mature differs. -/
theorem SameStake.advance_left {taken taken' : List ValidatorUpdate} {l l' : BondedStakeLedger}
    (h : SameStake taken l taken' l') {height : ℕ} (hnone : l'.NoneMature height) {h' : ℕ}
    (hle : h' ≤ height) : SameStake taken (l.advanceToHeight h') taken' l' where
  stake := h.stake
  queue v := by
    have hnone' : l.NoneMature height := fun v u hu => hnone v u (h.queue v ▸ hu)
    rw [hnone'.queueOf_advanceToHeight hle, h.queue v]
  updates := h.updates

/-- Two ledgers that are the same but for amounts that have matured at the height. -/
structure AlikeAt (height : ℕ) (l l' : BondedStakeLedger) : Prop where
  stake : ∀ v, l.stakeOf v = l'.stakeOf v
  queue : ∀ v, (l.queueOf v).filter (fun u => height < u.matureAt) =
    (l'.queueOf v).filter fun u => height < u.matureAt
  pending : l.pending = l'.pending

theorem filter_unmatured {h h' : ℕ} (hle : h ≤ h') (queue : List Unbonding) :
    (queue.filter fun u => h < u.matureAt).filter (fun u => h' < u.matureAt) =
      queue.filter fun u => h' < u.matureAt := by
  rw [List.filter_filter]
  refine List.filter_congr fun u _ => ?_
  rw [← Bool.decide_and, decide_eq_decide]
  omega

namespace AlikeAt
variable {height : ℕ} {l l' : BondedStakeLedger}

theorem refl (height : ℕ) (l : BondedStakeLedger) : AlikeAt height l l :=
  ⟨fun _ => rfl, fun _ => rfl, rfl⟩

theorem symm (h : AlikeAt height l l') : AlikeAt height l' l where
  stake v := (h.stake v).symm
  queue v := (h.queue v).symm
  pending := h.pending.symm

theorem mono (h : AlikeAt height l l') {height' : ℕ} (hle : height ≤ height') :
    AlikeAt height' l l' where
  stake := h.stake
  queue v := by rw [← filter_unmatured hle, h.queue v, filter_unmatured hle]
  pending := h.pending

/-- Whether the ledger has come to the height makes no difference there. -/
theorem advance_left (h : AlikeAt height l l') {height' : ℕ} (hle : height' ≤ height) :
    AlikeAt height (l.advanceToHeight height') l' where
  stake := h.stake
  queue v := by
    rw [BondedStakeLedger.queueOf_advanceToHeight, filter_unmatured hle, h.queue v]
  pending := h.pending

theorem take (h : AlikeAt height l l') : AlikeAt height l.takeUpdates.1 l'.takeUpdates.1 where
  stake := h.stake
  queue := h.queue
  pending := rfl

theorem slashes (h : AlikeAt height l l') (nodes : List NodeId) :
    AlikeAt height (nodes.foldl .slash l) (nodes.foldl .slash l') := by
  induction nodes generalizing l l' with
  | nil => exact h
  | cons node nodes ih =>
    refine ih ⟨fun v => ?_, fun v => ?_, ?_⟩
    · rw [BondedStakeLedger.stakeOf_slash, BondedStakeLedger.stakeOf_slash, h.stake v]
    · rw [BondedStakeLedger.queueOf_slash, BondedStakeLedger.queueOf_slash]
      split_ifs
      · rfl
      · exact h.queue v
    · rw [BondedStakeLedger.pending_slash, BondedStakeLedger.pending_slash, h.stake node, h.pending]

theorem absorb (h : AlikeAt height l l') {height' : ℕ} (hle : height ≤ height')
    (logs : List Log) : AlikeAt height' (l.absorb height' logs) (l'.absorb height' logs) := by
  have hstart : SameStake [] (l.advanceToHeight height') [] (l'.advanceToHeight height') :=
    { stake := h.stake
      queue := fun v => by
        rw [BondedStakeLedger.queueOf_advanceToHeight, BondedStakeLedger.queueOf_advanceToHeight]
        exact (h.mono hle).queue v
      updates := h.pending }
  have hend := (hstart.applies rfl (parseStakeLogs (getLogs stakingAddress
    [depositTopic, withdrawTopic] logs))).slashes (parseSlashedLogs (getLogs slashingAddress
    [slashedTopic] logs))
  exact ⟨hend.stake, fun v => congrArg _ (hend.queue v), hend.updates⟩

end AlikeAt

end Boule
