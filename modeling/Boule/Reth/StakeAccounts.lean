import Boule.CheckedArith
import Boule.Lib.Run
import Boule.Lib.Totals
import Boule.Reth.SameStake

/-! What becomes of the bonded stake over runs of the ledger. Nothing is lost or made, and the
updates tell all of it; the sums that the ledger reports are those of `u64`s. -/
namespace Boule

namespace BondedStakeLedger

def totalStake (l : BondedStakeLedger) : Option ℕ := sumU64 (l.stake.toList.map Prod.snd)

def unbondingOf (l : BondedStakeLedger) (node : NodeId) : Option ℕ :=
  (l.unbonding.get? node).elim (some 0) fun queue => sumU64 (queue.map Unbonding.amount)

/-! ### The exact sums -/

/-- All active stake. -/
def active (l : BondedStakeLedger) : ℕ := l.stake.sumOf fun _ w => w

def amounts (queue : List Unbonding) : ℕ := (queue.map Unbonding.amount).sum

/-- What a validator unbonds. -/
def leaving (l : BondedStakeLedger) (node : NodeId) : ℕ := amounts (l.queueOf node)

def allLeaving (l : BondedStakeLedger) : ℕ := l.unbonding.sumOf fun _ queue => amounts queue

/-- What matures at the height. -/
def maturing (l : BondedStakeLedger) (height : ℕ) : ℕ :=
  l.unbonding.sumOf fun _ queue => amounts (queue.filter fun u => u.matureAt ≤ height)

variable {l : BondedStakeLedger}

theorem share_stake (l : BondedStakeLedger) (node : NodeId) :
    l.stake.share (fun _ w => w) node = l.stakeOf node := by
  unfold Table.share stakeOf
  cases l.stake.get? node <;> rfl

theorem share_unbonding (l : BondedStakeLedger) (node : NodeId) :
    l.unbonding.share (fun _ queue => amounts queue) node = l.leaving node := by
  unfold Table.share leaving queueOf
  cases l.unbonding.get? node <;> rfl

theorem stakeOf_le_active (l : BondedStakeLedger) (node : NodeId) : l.stakeOf node ≤ l.active := by
  rw [← l.share_stake]
  exact Table.share_le_sumOf _ _

theorem amounts_append (queue queue' : List Unbonding) :
    amounts (queue ++ queue') = amounts queue + amounts queue' := by
  unfold amounts
  rw [List.map_append, List.sum_append]

/-- A queue is what matures and what stays. -/
theorem amounts_split (queue : List Unbonding) (height : ℕ) :
    amounts (queue.filter fun u => height < u.matureAt) +
      amounts (queue.filter fun u => u.matureAt ≤ height) = amounts queue := by
  unfold amounts
  induction queue with
  | nil => rfl
  | cons u queue ih =>
    by_cases h : height < u.matureAt
    · have hnot : ¬ u.matureAt ≤ height := by omega
      rw [List.filter_cons_of_pos (by simpa using h), List.filter_cons_of_neg (by simpa using hnot),
        List.map_cons, List.map_cons, List.sum_cons, List.sum_cons, ← ih]
      omega
    · have hle : u.matureAt ≤ height := by omega
      rw [List.filter_cons_of_neg (by simpa using h), List.filter_cons_of_pos (by simpa using hle),
        List.map_cons, List.map_cons, List.sum_cons, List.sum_cons, ← ih]
      omega

/-- An operation moves the stake of its validator only. -/
theorem active_apply (l : BondedStakeLedger) (node : NodeId) (op : StakeOp) :
    (l.apply node op).active + l.stakeOf node = l.active + op.on (l.stakeOf node) := by
  have hrest : ∀ v, v ≠ node → (l.apply node op).stake.share (fun _ w => w) v =
      l.stake.share (fun _ w => w) v := by
    intro v hv
    rw [share_stake, share_stake, stakeOf_apply, if_neg hv]
  have hsum := Table.sumOf_add_share hrest
  rwa [share_stake, share_stake, stakeOf_apply, if_pos rfl] at hsum

theorem leaving_apply (l : BondedStakeLedger) (node : NodeId) (op : StakeOp) (v : NodeId)
    (hfit : l.stakeOf node < 2 ^ 64) : (l.apply node op).leaving v =
      l.leaving v + if v = node then l.stakeOf node - op.on (l.stakeOf node) else 0 := by
  unfold leaving
  rw [queueOf_apply, amounts_append, Nat.add_left_cancel_iff]
  cases op with
  | bond amount =>
    have hon : (StakeOp.bond amount).on (l.stakeOf node) =
        min (l.stakeOf node + amount) (2 ^ 64 - 1) := rfl
    have hup : l.stakeOf node ≤ (StakeOp.bond amount).on (l.stakeOf node) := by omega
    rw [Nat.sub_eq_zero_of_le hup, ite_self]
    rfl
  | unbond amount =>
    have hon : (StakeOp.unbond amount).on (l.stakeOf node) = l.stakeOf node - amount := rfl
    have hmoved : l.stakeOf node - (StakeOp.unbond amount).on (l.stakeOf node) =
        min amount (l.stakeOf node) := by omega
    rw [hmoved]
    simp only
    by_cases hv : v = node
    · by_cases hzero : min amount (l.stakeOf node) = 0
      · rw [if_neg fun h => h.2 hzero, if_pos hv, hzero]
        rfl
      · rw [if_pos ⟨hv, hzero⟩, if_pos hv]
        exact List.sum_singleton
    · rw [if_neg fun h => hv h.1, if_neg hv]
      rfl

theorem allLeaving_apply (l : BondedStakeLedger) (node : NodeId) (op : StakeOp)
    (hfit : l.stakeOf node < 2 ^ 64) : (l.apply node op).allLeaving =
      l.allLeaving + (l.stakeOf node - op.on (l.stakeOf node)) := by
  have hrest : ∀ v, v ≠ node → (l.apply node op).unbonding.share (fun _ q => amounts q) v =
      l.unbonding.share (fun _ q => amounts q) v := by
    intro v hv
    rw [share_unbonding, share_unbonding, leaving_apply l node op v hfit, if_neg hv, Nat.add_zero]
  have hsum := Table.sumOf_add_share hrest
  rw [share_unbonding, share_unbonding, leaving_apply l node op node hfit, if_pos rfl] at hsum
  unfold allLeaving
  omega

theorem active_slash (l : BondedStakeLedger) (node : NodeId) :
    (l.slash node).active + l.stakeOf node = l.active := by
  rw [← share_stake]
  exact Table.sumOf_erase l.stake node

theorem leaving_slash (l : BondedStakeLedger) (node v : NodeId) :
    (l.slash node).leaving v = if v = node then 0 else l.leaving v := by
  unfold leaving
  rw [queueOf_slash]
  split_ifs <;> rfl

theorem allLeaving_slash (l : BondedStakeLedger) (node : NodeId) :
    (l.slash node).allLeaving + l.leaving node = l.allLeaving := by
  rw [← share_unbonding]
  exact Table.sumOf_erase l.unbonding node

theorem leaving_advance_le (l : BondedStakeLedger) (height : ℕ) (v : NodeId) :
    (l.advanceToHeight height).leaving v ≤ l.leaving v := by
  have hsplit := amounts_split (l.queueOf v) height
  unfold leaving
  rw [queueOf_advanceToHeight]
  omega

theorem allLeaving_advance (l : BondedStakeLedger) (height : ℕ) :
    (l.advanceToHeight height).allLeaving + l.maturing height = l.allLeaving := by
  have hstay : (l.advanceToHeight height).allLeaving = l.unbonding.sumOf fun _ queue =>
      amounts (queue.filter fun u => height < u.matureAt) := by
    apply Table.sumOf_congr
    intro v
    have hqueue := l.queueOf_advanceToHeight height v
    rw [share_unbonding, leaving, hqueue, Table.share, queueOf]
    cases l.unbonding.get? v <;> rfl
  rw [hstay, maturing, ← Table.sumOf_add]
  unfold allLeaving
  congr 1
  funext _ queue
  exact amounts_split queue height

end BondedStakeLedger

/-! ### Runs -/

inductive StakeMove where
  | apply (node : NodeId) (op : StakeOp)
  | slash (node : NodeId)
  | advanceToHeight (height : ℕ)
  | takeUpdates
  deriving DecidableEq

/-- A ledger with the updates that were taken from it, and with what was bonded, what has matured
and what was slashed so far. -/
structure StakeAccount where
  ledger : BondedStakeLedger
  taken : List ValidatorUpdate
  bonded : ℕ
  matured : ℕ
  slashed : ℕ

namespace StakeAccount
open BondedStakeLedger

def start (genesis : List (NodeId × ℕ)) : StakeAccount := ⟨.seededFrom genesis, [], 0, 0, 0⟩

def step (s : StakeAccount) : StakeMove → StakeAccount
  | .apply node op =>
    { s with
      ledger := s.ledger.apply node op
      bonded := s.bonded + (op.on (s.ledger.stakeOf node) - s.ledger.stakeOf node) }
  | .slash node =>
    { s with
      ledger := s.ledger.slash node
      slashed := s.slashed + (s.ledger.stakeOf node + s.ledger.leaving node) }
  | .advanceToHeight height =>
    { s with
      ledger := s.ledger.advanceToHeight height
      matured := s.matured + s.ledger.maturing height }
  | .takeUpdates =>
    { s with
      ledger := s.ledger.takeUpdates.1
      taken := s.taken ++ s.ledger.takeUpdates.2 }

/-- The updates over the genesis weights give the stake, no stake is zero, and nothing is lost or
made. -/
structure Balanced (genesis : Table NodeId ℕ) (s : StakeAccount) : Prop where
  replayed : ∀ node, (((s.taken ++ s.ledger.pending).foldl
    (fun t u => t.insert u.nodeId u.weight) genesis).get? node).getD 0 = s.ledger.stakeOf node
  positive : ∀ node w, s.ledger.stake.get? node = some w → 0 < w
  conserved : s.ledger.active + s.ledger.allLeaving + s.matured + s.slashed =
    genesis.sumOf (fun _ w => w) + s.bonded

/-- The sums that the ledger reports are exact. -/
def SumsExact (s : StakeAccount) : Prop :=
  s.ledger.totalStake = some s.ledger.active ∧
    ∀ node, s.ledger.unbondingOf node = some (s.ledger.leaving node)

/-- There is room for what an operation bonds in the total, and for what it unbonds in the sum of
the validator's queue. -/
def Fits (s : StakeAccount) : StakeMove → Prop
  | .apply node op =>
    s.ledger.active + (op.on (s.ledger.stakeOf node) - s.ledger.stakeOf node) < 2 ^ 64 ∧
      s.ledger.leaving node + (s.ledger.stakeOf node - op.on (s.ledger.stakeOf node)) < 2 ^ 64
  | _ => True

variable {s : StakeAccount} {genesis : Table NodeId ℕ}

theorem sumsExact_iff : s.SumsExact ↔
    s.ledger.active < 2 ^ 64 ∧ ∀ node, s.ledger.leaving node < 2 ^ 64 := by
  have htotal : s.ledger.totalStake = some s.ledger.active ↔ s.ledger.active < 2 ^ 64 :=
    sumU64_eq_some_sum
  have hleaving : ∀ node, s.ledger.unbondingOf node = some (s.ledger.leaving node) ↔
      s.ledger.leaving node < 2 ^ 64 := by
    intro node
    unfold unbondingOf leaving queueOf
    cases s.ledger.unbonding.get? node with
    | none => exact iff_of_true rfl (by decide)
    | some queue => exact sumU64_eq_some_sum
  unfold SumsExact
  rw [htotal, forall_congr' hleaving]

/-- What the updates say is what the ledger has. -/
theorem replayed_iff : (∀ node, (((s.taken ++ s.ledger.pending).foldl
      (fun t u => t.insert u.nodeId u.weight) genesis).get? node).getD 0 = s.ledger.stakeOf node) ↔
    ∀ node, (lastUpdate (s.taken ++ s.ledger.pending) node).getD ((genesis.get? node).getD 0) =
      s.ledger.stakeOf node := by
  apply forall_congr'
  intro node
  rw [get?_reconcile]
  cases lastUpdate (s.taken ++ s.ledger.pending) node <;> rfl

theorem positive_apply {l : BondedStakeLedger} (h : ∀ v w, l.stake.get? v = some w → 0 < w)
    (node : NodeId) (op : StakeOp) (hfit : l.stakeOf node < 2 ^ 64) :
    ∀ v w, (l.apply node op).stake.get? v = some w → 0 < w := by
  intro v w hget
  cases op with
  | bond amount =>
    unfold BondedStakeLedger.apply at hget
    simp only at hget
    split_ifs at hget with hsame
    · exact h v w hget
    · rw [Table.get?_insert] at hget
      split_ifs at hget with hv
      · have hw := Option.some.inj hget
        unfold saturatingAddU64 at hsame hw
        omega
      · exact h v w hget
  | unbond amount =>
    unfold BondedStakeLedger.apply at hget
    simp only at hget
    split_ifs at hget with hmoved hzero
    · exact h v w hget
    · rw [Table.get?_erase] at hget
      split_ifs at hget
      exact h v w hget
    · rw [Table.get?_insert] at hget
      split_ifs at hget with hv
      · have hw := Option.some.inj hget
        omega
      · exact h v w hget

/-- A stake that is a `u64` stays one. -/
theorem stakeOf_apply_lt {l : BondedStakeLedger} (h : ∀ v, l.stakeOf v < 2 ^ 64) (node : NodeId)
    (op : StakeOp) (v : NodeId) : (l.apply node op).stakeOf v < 2 ^ 64 := by
  have hv := h v
  rw [stakeOf_apply]
  split_ifs
  · cases op with
    | bond amount =>
      have hon : (StakeOp.bond amount).on (l.stakeOf v) =
          min (l.stakeOf v + amount) (2 ^ 64 - 1) := rfl
      omega
    | unbond amount =>
      have hon : (StakeOp.unbond amount).on (l.stakeOf v) = l.stakeOf v - amount := rfl
      omega
  · exact hv

theorem Balanced.step (h : s.Balanced genesis) (hfit : ∀ v, s.ledger.stakeOf v < 2 ^ 64)
    (input : StakeMove) : (s.step input).Balanced genesis := by
  have hreplayed := replayed_iff.mp h.replayed
  have hsum := h.conserved
  cases input with
  | apply node op =>
    refine ⟨replayed_iff.mpr fun v => ?_, positive_apply h.positive node op (hfit node), ?_⟩
    · have hv := hreplayed v
      unfold StakeAccount.step
      simp only
      rw [pending_apply, stakeOf_apply]
      split_ifs with hsame hnode hnode
      · rw [List.append_nil, hv, hnode, hsame]
      · rw [List.append_nil, hv]
      · rw [← List.append_assoc, lastUpdate_append, if_pos hnode.symm, hnode, Option.getD_some]
      · rw [← List.append_assoc, lastUpdate_append, if_neg (Ne.symm hnode), hv]
    · have hactive := s.ledger.active_apply node op
      have hleaving := s.ledger.allLeaving_apply node op (hfit node)
      have hcases := Nat.le_total (op.on (s.ledger.stakeOf node)) (s.ledger.stakeOf node)
      unfold StakeAccount.step
      simp only
      omega
  | slash node =>
    refine ⟨replayed_iff.mpr fun v => ?_, fun v w hget => ?_, ?_⟩
    · have hv := hreplayed v
      unfold StakeAccount.step
      simp only
      rw [pending_slash, stakeOf_slash]
      split_ifs with hactive hnode hnode
      · rw [← List.append_assoc, lastUpdate_append, if_pos hnode.symm, Option.getD_some]
      · rw [← List.append_assoc, lastUpdate_append, if_neg (Ne.symm hnode), hv]
      · rw [List.append_nil, hv, hnode]
        omega
      · rw [List.append_nil, hv]
    · have hget : Table.get? (s.ledger.stake.erase node) v = some w := hget
      rw [Table.get?_erase] at hget
      split_ifs at hget
      exact h.positive v w hget
    · have hactive := s.ledger.active_slash node
      have hleaving := s.ledger.allLeaving_slash node
      unfold StakeAccount.step
      simp only
      omega
  | advanceToHeight height =>
    refine ⟨h.replayed, h.positive, ?_⟩
    have hactive : (s.ledger.advanceToHeight height).active = s.ledger.active := rfl
    have hleaving := s.ledger.allLeaving_advance height
    unfold StakeAccount.step
    simp only
    omega
  | takeUpdates =>
    refine ⟨replayed_iff.mpr fun v => ?_, h.positive, hsum⟩
    have hv := hreplayed v
    unfold StakeAccount.step takeUpdates
    simp only [List.append_nil]
    exact hv

theorem stakeOf_step_lt (hfit : ∀ v, s.ledger.stakeOf v < 2 ^ 64) (input : StakeMove) (v : NodeId) :
    (s.step input).ledger.stakeOf v < 2 ^ 64 := by
  have hv := hfit v
  cases input with
  | apply node op => exact stakeOf_apply_lt hfit node op v
  | slash node =>
    have hstake : (s.step (.slash node)).ledger.stakeOf v = _ := s.ledger.stakeOf_slash node v
    rw [hstake]
    split_ifs
    · decide
    · exact hv
  | advanceToHeight height => exact hv
  | takeUpdates => exact hv

/-- Sums that are exact stay so when there is room. -/
theorem sumsExact_step_iff (h : s.SumsExact) (input : StakeMove) :
    (s.step input).SumsExact ↔ s.Fits input := by
  obtain ⟨hactive, hleaving⟩ := sumsExact_iff.mp h
  rw [sumsExact_iff]
  cases input with
  | apply node op =>
    have hnode : s.ledger.stakeOf node < 2 ^ 64 :=
      (s.ledger.stakeOf_le_active node).trans_lt hactive
    have hsum : (s.ledger.apply node op).active + s.ledger.stakeOf node =
      s.ledger.active + op.on (s.ledger.stakeOf node) := s.ledger.active_apply node op
    have hat := s.ledger.leaving_apply node op node hnode
    rw [if_pos rfl] at hat
    unfold StakeAccount.step Fits
    simp only
    constructor
    · rintro ⟨htotal, hqueue⟩
      have hqueue := hqueue node
      omega
    · rintro ⟨htotal, hqueue⟩
      refine ⟨by omega, fun v => ?_⟩
      have hv := hleaving v
      rw [s.ledger.leaving_apply node op v hnode]
      split_ifs with he
      · rw [he]
        exact hqueue
      · exact hv
  | slash node =>
    have hsum : (s.step (.slash node)).ledger.active + s.ledger.stakeOf node = s.ledger.active :=
      s.ledger.active_slash node
    refine iff_of_true ⟨by omega, fun v => ?_⟩ trivial
    have hv := hleaving v
    have hqueue : (s.step (.slash node)).ledger.leaving v = _ := s.ledger.leaving_slash node v
    rw [hqueue]
    split_ifs
    · decide
    · exact hv
  | advanceToHeight height =>
    refine iff_of_true ⟨hactive, fun v => ?_⟩ trivial
    exact (s.ledger.leaving_advance_le height v).trans_lt (hleaving v)
  | takeUpdates => exact iff_of_true ⟨hactive, hleaving⟩ trivial

/-! ### The genesis weights -/

theorem get?_seededFrom (genesis : List (NodeId × ℕ)) {node w : ℕ}
    (h : (seededFrom genesis).stake.get? node = some w) : (node, w) ∈ genesis ∧ 0 < w := by
  have hloop : ∀ (entries : List (NodeId × ℕ)) (t : Table NodeId ℕ),
      (∀ v w, t.get? v = some w → (v, w) ∈ genesis ∧ 0 < w) →
      (∀ e ∈ entries, e ∈ genesis ∧ 0 < e.2) →
      ∀ v w, (entries.foldl (fun t e => t.insert e.1 e.2) t).get? v = some w →
        (v, w) ∈ genesis ∧ 0 < w := by
    intro entries
    induction entries with
    | nil => exact fun t ht _ => ht
    | cons e entries ih =>
      intro t ht hentries
      refine ih _ ?_ fun x hx => hentries x (List.mem_cons_of_mem _ hx)
      intro v w hget
      rw [Table.get?_insert] at hget
      split_ifs at hget with hv
      · rw [hv, ← Option.some.inj hget]
        exact hentries e (List.mem_cons_self ..)
      · exact ht v w hget
  refine hloop _ ∅ (fun v w hget => ?_) (fun e he => ?_) node w h
  · rw [Table.get?_empty] at hget
    cases hget
  · obtain ⟨hmem, hpos⟩ := List.mem_filter.mp he
    exact ⟨hmem, of_decide_eq_true hpos⟩

theorem balanced_start (genesis : List (NodeId × ℕ)) :
    (start genesis).Balanced (seededFrom genesis).stake := by
  refine ⟨fun node => rfl, fun node w h => (get?_seededFrom genesis h).2, ?_⟩
  have hleaving : (start genesis).ledger.allLeaving = 0 := Table.sumOf_empty
  rw [hleaving]
  rfl

theorem stakeOf_start_lt {genesis : List (NodeId × ℕ)} (h : ∀ e ∈ genesis, e.2 < 2 ^ 64)
    (node : NodeId) : (start genesis).ledger.stakeOf node < 2 ^ 64 := by
  have hstake : (start genesis).ledger.stakeOf node =
      ((seededFrom genesis).stake.get? node).getD 0 := rfl
  rw [hstake]
  cases hget : (seededFrom genesis).stake.get? node with
  | none => decide
  | some w => exact h (node, w) (get?_seededFrom genesis hget).1

/-- In every run the updates tell all of the stake, and it is conserved. The reported sums are
exact throughout exactly when the genesis weights and every operation leave room for them. -/
theorem stake_accounted {genesis : List (NodeId × ℕ)} (hgenesis : ∀ e ∈ genesis, e.2 < 2 ^ 64)
    (inputs : List StakeMove) :
    (∀ k, (run step (start genesis) (inputs.take k)).Balanced (seededFrom genesis).stake) ∧
      ((∀ k, (run step (start genesis) (inputs.take k)).SumsExact) ↔
        (seededFrom genesis).active < 2 ^ 64 ∧ Along step Fits (start genesis) inputs) := by
  constructor
  · intro k
    have hkept := run_invariant
      (I := fun s : StakeAccount =>
        s.Balanced (seededFrom genesis).stake ∧ ∀ v, s.ledger.stakeOf v < 2 ^ 64)
      (fun s input h => ⟨h.1.step h.2 input, stakeOf_step_lt h.2 input⟩)
      ⟨balanced_start genesis, stakeOf_start_lt hgenesis⟩ (inputs.take k)
    exact hkept.1
  · have hstart : (start genesis).SumsExact ↔ (seededFrom genesis).active < 2 ^ 64 := by
      rw [sumsExact_iff]
      refine and_iff_left fun node => ?_
      have hnone : (start genesis).ledger.leaving node = 0 := rfl
      rw [hnone]
      decide
    rw [← hstart]
    constructor
    · intro hall
      have hfirst : (start genesis).SumsExact := hall 0
      exact ⟨hfirst, (along_iff_of_step (I := SumsExact)
        (fun s input hs => sumsExact_step_iff hs input) hfirst).mp hall⟩
    · rintro ⟨hfirst, hfits⟩
      exact (along_iff_of_step (I := SumsExact)
        (fun s input hs => sumsExact_step_iff hs input) hfirst).mpr hfits

end StakeAccount

namespace Sample
open StakeAccount

/-- Stake is bonded, unbonded and slashed, and the rest matures. -/
theorem small_stakes_accounted :
    (∀ k, (run step (start [(1, 5), (2, 7)]) ([.apply 1 (.bond 10), .apply 2 (.unbond 3), .slash 1,
      .takeUpdates, .advanceToHeight 512].take k)).Balanced
        (BondedStakeLedger.seededFrom [(1, 5), (2, 7)]).stake) ∧
      ∀ k, (run step (start [(1, 5), (2, 7)]) ([.apply 1 (.bond 10), .apply 2 (.unbond 3),
        .slash 1, .takeUpdates, .advanceToHeight 512].take k)).SumsExact := by
  have hgenesis : ∀ e ∈ [((1 : NodeId), 5), (2, 7)], e.2 < 2 ^ 64 := by decide
  have haccounted := stake_accounted hgenesis
    [.apply 1 (.bond 10), .apply 2 (.unbond 3), .slash 1, .takeUpdates, .advanceToHeight 512]
  refine ⟨haccounted.1, haccounted.2.mpr ⟨by decide +kernel, ?_⟩⟩
  refine ⟨?_, ?_, trivial, trivial, trivial, trivial⟩
  · unfold Fits
    decide +kernel
  · unfold Fits
    decide +kernel

/-- The log of a deposit of `2 ^ 64`. -/
def hugeDeposit (node : NodeId) : Log :=
  ⟨stakingAddress, [depositTopic, node], List.replicate 23 0 ++ [1] ++ List.replicate 8 0⟩

/-- Two deposits, each clamped to a `u64`, do not fit in one sum. -/
theorem total_overflows : ¬ (run step (start [])
    ((parseStakeLogs [hugeDeposit 1, hugeDeposit 2]).map fun e => .apply e.1 e.2)).SumsExact := by
  rintro ⟨htotal, -⟩
  revert htotal
  decide +kernel

end Sample

end Boule
