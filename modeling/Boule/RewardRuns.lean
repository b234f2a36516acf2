import Boule.Lib.Run
import Boule.RewardLedger

/-! Rewards over runs of blocks, settlements and changes of stake. The exact ledger never owes more
than was issued; the code keeps it as long as the index fits in a `u128` and what each node is due
in a `u64`. -/
namespace Boule
open LazyIndex (parts pending pending_grow pending_pay pending_insert)

inductive RewardInput where
  | accrueBlock (proposer : NodeId) (issuance bonus : ℕ)
  | settle (node : NodeId)
  | setStake (node : NodeId) (stake : ℕ)
  deriving DecidableEq

/-- The code's ledger beside the exact one, under the stake that both are asked with. `accrued` is
what the blocks issued while there was stake to issue it to, and all bonuses; `floored` is what the
index leaves out, in parts. -/
structure RewardRun where
  code : Option RewardLedger
  ledger : RewardLedger
  stake : Table NodeId ℕ
  accrued : ℕ
  settlements : ℕ
  floored : ℕ

namespace RewardRun
open RewardLedger

def start : RewardRun := ⟨some .new, .new, ∅, 0, 0, 0⟩

def stakeOf (s : RewardRun) (node : NodeId) : ℕ := (s.stake.get? node).getD 0

def totalStake (s : RewardRun) : ℕ := LazyIndex.total s.stake

def step (s : RewardRun) : RewardInput → RewardRun
  | .accrueBlock proposer issuance bonus =>
    { s with
      code := s.code.bind fun l => l.accrueBlock proposer issuance bonus s.totalStake
      ledger := s.ledger.accrueExact proposer issuance bonus s.totalStake
      accrued := s.accrued + (if 0 < s.totalStake then issuance else 0) + bonus
      floored := s.floored +
        if 0 < s.totalStake then issuance * indexScale % s.totalStake else 0 }
  | .settle node =>
    { s with
      code := s.code.bind fun l => l.settle node (s.stakeOf node)
      ledger := s.ledger.settleExact node (s.stakeOf node)
      settlements := s.settlements + 1 }
  | .setStake node stake => { s with stake := s.stake.insert node stake }

/-- The issuance is a `u64`, and a node is settled when its stake changes. -/
def Allowed (s : RewardRun) : RewardInput → Prop
  | .accrueBlock _ issuance _ => issuance < 2 ^ 64
  | .settle _ => True
  | .setStake node _ => s.ledger.lastOf node = s.ledger.index

instance Allowed.decidable (s : RewardRun) : ∀ input, Decidable (s.Allowed input)
  | .accrueBlock _ issuance _ => inferInstanceAs (Decidable (issuance < 2 ^ 64))
  | .settle _ => inferInstanceAs (Decidable True)
  | .setStake node _ => inferInstanceAs (Decidable (s.ledger.lastOf node = s.ledger.index))

def due (s : RewardRun) (node : NodeId) : ℕ := s.ledger.due node (s.stakeOf node)

/-- A block leaves room for the index, and for what each node is due after it. -/
def Fits (s : RewardRun) : RewardInput → Prop
  | .accrueBlock proposer issuance bonus =>
    s.ledger.index + growth issuance s.totalStake < 2 ^ 128 ∧ ∀ node,
      (s.ledger.balanceOf node + if node = proposer then bonus else 0) +
        s.stakeOf node * (s.ledger.index + growth issuance s.totalStake - s.ledger.lastOf node) /
          indexScale < 2 ^ 64
  | _ => True

/-- The code's ledger is the exact one, and each node can claim what it is due; together that is
what was accrued, but for less than a unit for each node and each settlement and what the index
leaves out. A settlement moves all that a node can claim to its balance, and one that joins has
nothing from before. -/
structure Accounted (s : RewardRun) : Prop where
  exact : s.code = some s.ledger
  claimed : ∀ node, s.ledger.claimable node (s.stakeOf node) = some (s.due node)
  covered : ∀ nodes : Finset NodeId, ∑ node ∈ nodes, s.due node ≤ s.accrued
  short : ∀ nodes : Finset NodeId, (∀ node, 0 < s.due node ∨ 0 < s.stakeOf node → node ∈ nodes) →
    indexScale * s.accrued ≤ indexScale * ∑ node ∈ nodes, s.due node +
      (indexScale - 1) * (nodes.card + s.settlements) + s.floored
  settled : ∀ node stake stake',
    (s.ledger.settle node stake).bind (fun l => l.claimable node stake') =
      (s.ledger.settle node stake).map fun l => l.balanceOf node
  joined : ∀ node stake, s.stakeOf node = 0 →
    (s.ledger.settle node 0).bind (fun l => l.claimable node stake) =
      some (s.ledger.balanceOf node)

/-- What was accrued is paid or pending, but for what the settlements and the index leave out. -/
structure Conserved (s : RewardRun) : Prop where
  lastOf_le : ∀ node, s.ledger.lastOf node ≤ s.ledger.index
  index_le : s.ledger.index ≤ indexScale * s.accrued
  above : indexScale * s.ledger.paid + pending s.stake s.ledger.lastOf s.ledger.index + s.floored ≤
    indexScale * s.accrued
  below : indexScale * s.accrued ≤ indexScale * s.ledger.paid +
    pending s.stake s.ledger.lastOf s.ledger.index + s.floored + (indexScale - 1) * s.settlements

def Affordable (s : RewardRun) : Prop := s.ledger.index < 2 ^ 128 ∧ ∀ node, s.due node < 2 ^ 64

variable {s : RewardRun}

/-! ### Conservation -/

theorem growth_le (issuance totalStake : ℕ) :
    growth issuance totalStake ≤ indexScale * if 0 < totalStake then issuance else 0 := by
  unfold growth
  split_ifs with hpos
  · rw [Nat.mul_comm indexScale]
    exact Nat.div_le_self ..
  · have hzero : totalStake = 0 := by omega
    rw [hzero, Nat.div_zero]
    exact Nat.zero_le _

/-- A block's issuance goes to the index, but for what that leaves out. -/
theorem issuance_split (issuance totalStake : ℕ) :
    totalStake * growth issuance totalStake +
        (if 0 < totalStake then issuance * indexScale % totalStake else 0) =
      indexScale * if 0 < totalStake then issuance else 0 := by
  unfold growth
  split_ifs with hpos
  · rw [Nat.div_add_mod, Nat.mul_comm]
  · have hzero : totalStake = 0 := by omega
    rw [hzero, Nat.zero_mul, Nat.mul_zero]

theorem Conserved.accrue (h : s.Conserved) (proposer : NodeId) (issuance bonus : ℕ) :
    (s.step (.accrueBlock proposer issuance bonus)).Conserved := by
  have hle := h.lastOf_le
  have hindex := h.index_le
  have habove := h.above
  have hbelow := h.below
  have hgrowth := growth_le issuance s.totalStake
  have hsplit := issuance_split issuance s.totalStake
  have hpending := pending_grow s.stake hle (growth issuance s.totalStake)
  have hlast : (s.ledger.accrueExact proposer issuance bonus s.totalStake).lastOf =
    s.ledger.lastOf := funext (s.ledger.lastOf_accrueExact proposer issuance bonus s.totalStake)
  have hpaid := s.ledger.paid_accrueExact proposer issuance bonus s.totalStake
  have htotal : LazyIndex.total s.stake = s.totalStake := rfl
  rw [htotal] at hpending
  constructor
  · intro node
    have hnode := hle node
    unfold step
    simp only
    rw [hlast, index_accrueExact]
    omega
  · unfold step
    simp only
    rw [index_accrueExact, Nat.mul_add, Nat.mul_add]
    omega
  · unfold step
    simp only
    rw [hpaid, hlast, index_accrueExact, hpending, Nat.mul_add, Nat.mul_add, Nat.mul_add]
    omega
  · unfold step
    simp only
    rw [hpaid, hlast, index_accrueExact, hpending, Nat.mul_add, Nat.mul_add, Nat.mul_add]
    omega

theorem Conserved.settle (h : s.Conserved) (node : NodeId) :
    (s.step (.settle node)).Conserved := by
  have hle := h.lastOf_le
  have habove := h.above
  have hbelow := h.below
  have hlast := s.ledger.lastOf_settleExact node (s.stakeOf node)
  have hpaid := s.ledger.paid_settleExact node (s.stakeOf node)
  have hself : (s.ledger.settleExact node (s.stakeOf node)).lastOf node = s.ledger.index := by
    rw [hlast, if_pos rfl]
  have hrest : ∀ v, v ≠ node →
      (s.ledger.settleExact node (s.stakeOf node)).lastOf v = s.ledger.lastOf v := by
    intro v hv
    rw [hlast, if_neg hv]
  have hpending := pending_pay s.stake hself hrest
  -- the units are paid, and less than one is left out
  have hdiv : indexScale * s.ledger.earned node (s.stakeOf node) +
      parts s.stake s.ledger.lastOf s.ledger.index node % indexScale =
    parts s.stake s.ledger.lastOf s.ledger.index node := Nat.div_add_mod _ _
  have hmod := Nat.mod_lt (parts s.stake s.ledger.lastOf s.ledger.index node) indexScale_pos
  constructor
  · intro v
    have hv := hle v
    unfold step
    simp only
    rw [hlast, index_settleExact]
    split_ifs
    · exact Nat.le_refl _
    · exact hv
  · exact (index_settleExact ..).trans_le h.index_le
  · unfold step
    simp only
    rw [hpaid, index_settleExact, Nat.mul_add]
    omega
  · unfold step
    simp only
    rw [hpaid, index_settleExact, Nat.mul_add, Nat.mul_add]
    omega

theorem Conserved.setStake (h : s.Conserved) {node : NodeId}
    (hsettled : s.ledger.lastOf node = s.ledger.index) (stake : ℕ) :
    (s.step (.setStake node stake)).Conserved := by
  have hpending := pending_insert s.stake hsettled stake
  have habove := h.above
  have hbelow := h.below
  rw [← hpending] at habove hbelow
  exact ⟨h.lastOf_le, h.index_le, habove, hbelow⟩

theorem Conserved.step (h : s.Conserved) {input : RewardInput} (hallowed : s.Allowed input) :
    (s.step input).Conserved := by
  cases input with
  | accrueBlock proposer issuance bonus => exact h.accrue proposer issuance bonus
  | settle node => exact h.settle node
  | setStake node stake => exact h.setStake hallowed stake

theorem conserved_start : start.Conserved :=
  ⟨fun _ => Nat.le_refl 0, Nat.zero_le _, Nat.le_refl 0, Nat.zero_le _⟩

/-! ### What is due -/

theorem sum_due (s : RewardRun) (nodes : Finset NodeId) : ∑ node ∈ nodes, s.due node =
    ∑ node ∈ nodes, s.ledger.balanceOf node +
      ∑ node ∈ nodes, parts s.stake s.ledger.lastOf s.ledger.index node / indexScale :=
  Finset.sum_add_distrib

theorem Conserved.covered (h : s.Conserved) (nodes : Finset NodeId) :
    ∑ node ∈ nodes, s.due node ≤ s.accrued := by
  have hbalances : ∑ node ∈ nodes, s.ledger.balanceOf node ≤ s.ledger.paid := by
    have hshares := s.ledger.balance.sum_share_le_sumOf (f := fun _ b => b) nodes
    rwa [Finset.sum_congr rfl fun node _ => s.ledger.share_balance node] at hshares
  have hunits := LazyIndex.sum_units_le s.stake s.ledger.lastOf s.ledger.index indexScale nodes
  have hscaled := Nat.mul_le_mul_left indexScale hbalances
  have habove := h.above
  apply Nat.le_of_mul_le_mul_left _ indexScale_pos
  rw [sum_due, Nat.mul_add]
  omega

theorem Conserved.short (h : s.Conserved) {nodes : Finset NodeId}
    (hnodes : ∀ node, 0 < s.due node ∨ 0 < s.stakeOf node → node ∈ nodes) :
    indexScale * s.accrued ≤ indexScale * ∑ node ∈ nodes, s.due node +
      (indexScale - 1) * (nodes.card + s.settlements) + s.floored := by
  have hbalances : s.ledger.paid = ∑ node ∈ nodes, s.ledger.balanceOf node := by
    have hzero : ∀ node, node ∉ nodes → s.ledger.balance.share (fun _ b => b) node = 0 := by
      intro node hnot
      by_contra hshare
      rw [share_balance] at hshare
      refine hnot (hnodes node (Or.inl ?_))
      unfold due RewardLedger.due
      omega
    rw [paid, Table.sumOf_eq_sum_of_share hzero]
    exact Finset.sum_congr rfl fun node _ => s.ledger.share_balance node
  have hstakes : ∀ node, node ∉ nodes → (s.stake.get? node).getD 0 = 0 := by
    intro node hnot
    by_contra hstake
    exact hnot (hnodes node (Or.inr (Nat.pos_of_ne_zero hstake)))
  have hunits := LazyIndex.pending_le_units s.ledger.lastOf s.ledger.index indexScale_pos hstakes
  have hbelow := h.below
  rw [sum_due, Nat.mul_add, Nat.mul_add, ← hbalances]
  omega

theorem due_settle (s : RewardRun) (node v : NodeId) : (s.step (.settle node)).due v = s.due v := by
  have hlast := s.ledger.lastOf_settleExact node (s.stakeOf node) v
  have hbalance := s.ledger.balanceOf_settleExact node (s.stakeOf node) v
  have hstake : (s.step (.settle node)).stakeOf v = s.stakeOf v := rfl
  unfold due
  rw [hstake]
  unfold step RewardLedger.due
  simp only
  rw [hbalance]
  by_cases hv : v = node
  · have hsettled : (s.ledger.settleExact node (s.stakeOf node)).lastOf v =
        (s.ledger.settleExact node (s.stakeOf node)).index := by
      rw [hlast, if_pos hv, index_settleExact]
    rw [earned_of_settled hsettled, if_pos hv, hv, Nat.add_zero]
  · unfold earned
    rw [hlast, if_neg hv, if_neg hv, index_settleExact, Nat.add_zero]

theorem due_setStake_le {node : NodeId} (hsettled : s.ledger.lastOf node = s.ledger.index)
    (stake : ℕ) (v : NodeId) : (s.step (.setStake node stake)).due v ≤ s.due v := by
  have hledger : (s.step (.setStake node stake)).ledger = s.ledger := rfl
  by_cases hv : v = node
  · unfold due RewardLedger.due
    rw [hledger, hv, earned_of_settled hsettled]
    omega
  · have hstake : (s.step (.setStake node stake)).stakeOf v = s.stakeOf v := by
      unfold stakeOf step
      simp only
      rw [Table.get?_insert, if_neg hv]
    unfold due
    rw [hledger, hstake]

theorem affordable_step_iff (h : s.Affordable) {input : RewardInput} (hallowed : s.Allowed input) :
    (s.step input).Affordable ↔ s.Fits input := by
  cases input with
  | accrueBlock proposer issuance bonus =>
    have hdue : ∀ node, (s.step (.accrueBlock proposer issuance bonus)).due node =
        (s.ledger.balanceOf node + if node = proposer then bonus else 0) +
          s.stakeOf node * (s.ledger.index + growth issuance s.totalStake -
            s.ledger.lastOf node) / indexScale := by
      intro node
      have hstake : (s.step (.accrueBlock proposer issuance bonus)).stakeOf node =
        s.stakeOf node := rfl
      unfold due
      rw [hstake]
      unfold step RewardLedger.due earned
      simp only
      rw [balanceOf_accrueExact, index_accrueExact, lastOf_accrueExact]
    have hindex : (s.step (.accrueBlock proposer issuance bonus)).ledger.index =
      s.ledger.index + growth issuance s.totalStake := index_accrueExact ..
    unfold Affordable Fits
    rw [hindex, forall_congr' fun node => iff_of_eq (congrArg (· < 2 ^ 64) (hdue node))]
  | settle node =>
    have hindex : (s.step (.settle node)).ledger.index = s.ledger.index := index_settleExact ..
    refine iff_of_true ⟨hindex.trans_lt h.1, fun v => ?_⟩ trivial
    rw [due_settle]
    exact h.2 v
  | setStake node stake =>
    exact iff_of_true ⟨h.1, fun v => (due_setStake_le hallowed stake v).trans_lt (h.2 v)⟩ trivial

/-! ### The code's ledger -/

structure Sound (s : RewardRun) : Prop where
  exact : s.code = some s.ledger
  affordable : s.Affordable
  conserved : s.Conserved

theorem sound_start : start.Sound := by
  refine ⟨rfl, ⟨by decide, fun node => ?_⟩, conserved_start⟩
  have hsettled : start.ledger.lastOf node = start.ledger.index := rfl
  have hbalance : start.ledger.balanceOf node = 0 := rfl
  unfold due RewardLedger.due
  rw [earned_of_settled hsettled, hbalance]
  decide

theorem Sound.accounted (h : s.Sound) : s.Accounted := by
  have hdue := h.affordable.2
  have hbalance : ∀ node, s.ledger.balanceOf node < 2 ^ 64 := by
    intro node
    exact (Nat.le_add_right ..).trans_lt (hdue node)
  refine ⟨h.exact, fun node => claimable_eq_due_iff.mpr (hdue node), h.conserved.covered,
    fun nodes hnodes => h.conserved.short hnodes,
    fun node stake stake' => claimable_settle (hbalance node) stake stake', ?_⟩
  intro node stake hjoins
  have hnode : s.ledger.due node 0 < 2 ^ 64 := by
    rw [← hjoins]
    exact hdue node
  have hearned : s.ledger.earned node 0 = 0 := by rw [earned, Nat.zero_mul, Nat.zero_div]
  rw [claimable_settle (hbalance node), settle_eq hnode, Option.map_some, balanceOf_settleExact,
    if_pos rfl, hearned, Nat.add_zero]

theorem Sound.step (h : s.Sound) {input : RewardInput} (hallowed : s.Allowed input)
    (hfits : s.Fits input) : (s.step input).Sound := by
  refine ⟨?_, (affordable_step_iff h.affordable hallowed).mpr hfits, h.conserved.step hallowed⟩
  have hexact := h.exact
  cases input with
  | accrueBlock proposer issuance bonus =>
    have hproposer := hfits.2 proposer
    rw [if_pos rfl] at hproposer
    have hcode := accrueBlock_eq hallowed hfits.1 ((Nat.le_add_right ..).trans_lt hproposer)
    unfold RewardRun.step
    simp only
    rw [hexact, Option.bind_some, hcode]
  | settle node =>
    unfold RewardRun.step
    simp only
    rw [hexact, Option.bind_some]
    exact settle_eq (h.affordable.2 node)
  | setStake node stake => exact hexact

theorem Sound.fits_of_accounted (h : s.Sound) {input : RewardInput} (hallowed : s.Allowed input)
    (hnext : (s.step input).Accounted) : s.Fits input := by
  apply (affordable_step_iff h.affordable hallowed).mp
  refine ⟨?_, fun node => claimable_eq_due_iff.mp (hnext.claimed node)⟩
  cases input with
  | accrueBlock proposer issuance bonus =>
    have hcode := hnext.exact
    unfold RewardRun.step at hcode
    simp only at hcode
    rw [h.exact, Option.bind_some] at hcode
    exact (index_accrueExact ..).trans_lt
      (index_lt_of_accrueBlock hallowed h.affordable.1 hcode)
  | settle node => exact (index_settleExact ..).trans_lt h.affordable.1
  | setStake node stake => exact h.affordable.1

/-- Over every run in which nodes are settled before their stake changes, the rewards are accounted
for throughout exactly when every block leaves room for the index and for what each node is due. -/
theorem rewards_accounted_iff {inputs : List RewardInput}
    (h : Along RewardRun.step Allowed start inputs) :
    (∀ k, (run RewardRun.step start (inputs.take k)).Accounted) ↔
      Along RewardRun.step Fits start inputs :=
  Along.iff_of_invariant (I := Sound) (fun _ hs => hs.accounted)
    (fun _ _ hs hallowed hfits => hs.step hallowed hfits)
    (fun _ _ hs hallowed hnext => hs.fits_of_accounted hallowed hnext) h sound_start

/-- There is room as long as what is accrued in all fits in a `u64`. -/
theorem fits_of_accrued {inputs : List RewardInput} (h : Along RewardRun.step Allowed start inputs)
    (haccrued : Along RewardRun.step (fun s input => (s.step input).accrued < 2 ^ 64) start
      inputs) : Along RewardRun.step Fits start inputs := by
  refine (h.and haccrued).imp_of_invariant (I := Sound) (fun s input hstep hs => ?_) sound_start
  have hconserved := hs.conserved.step hstep.1
  have hfits : s.Fits input := by
    apply (affordable_step_iff hs.affordable hstep.1).mp
    refine ⟨?_, fun node => ?_⟩
    · have hindex := hconserved.index_le
      have hscaled : indexScale * (s.step input).accrued < 2 ^ 128 := by
        unfold indexScale
        omega
      omega
    · have hcovered := hconserved.covered {node}
      rw [Finset.sum_singleton] at hcovered
      omega
  exact ⟨hs.step hstep.1 hfits, hfits⟩

end RewardRun

namespace Sample
open RewardRun

/-- Node 2 joins after the first block, and both are accounted for. -/
theorem late_joiner_accounted : (run RewardRun.step start [.setStake 1 5, .accrueBlock 1 100 3,
    .settle 2, .setStake 2 7, .accrueBlock 2 100 3, .settle 1]).Accounted := by
  have hallowed : Along RewardRun.step Allowed start [.setStake 1 5, .accrueBlock 1 100 3,
      .settle 2, .setStake 2 7, .accrueBlock 2 100 3, .settle 1] := by decide +kernel
  have haccrued : Along RewardRun.step (fun s input => (s.step input).accrued < 2 ^ 64) start
      [.setStake 1 5, .accrueBlock 1 100 3, .settle 2, .setStake 2 7, .accrueBlock 2 100 3,
        .settle 1] := by decide +kernel
  have haccounted := (rewards_accounted_iff hallowed).mpr (fits_of_accrued hallowed haccrued)
  exact haccounted 6

/-- A node with a stake of one earns two blocks before it is settled, and the cast to a `u64` drops
most of what it is due. -/
theorem two_blocks_truncated :
    Along RewardRun.step Allowed start [.setStake 1 1, .accrueBlock 1 (10 ^ 19) 0,
        .accrueBlock 1 (10 ^ 19) 0] ∧
      ¬ (run RewardRun.step start [.setStake 1 1, .accrueBlock 1 (10 ^ 19) 0,
        .accrueBlock 1 (10 ^ 19) 0]).Accounted := by
  refine ⟨by decide +kernel, fun h => ?_⟩
  have hclaimed := h.claimed 1
  revert hclaimed
  decide +kernel

end Sample

end Boule
