import Boule.Reth.Registry
import Boule.Rotation

/-! The logs of the staking and slashing contracts and the ledger of bonded stake that is kept
from them. -/
namespace Boule

/-! ### Logs -/

structure Log where
  address : Address
  topics : List Bytes32
  data : Bytes
  deriving DecidableEq

def stakingAddress : Address := 0xb0e

def slashingAddress : Address := 0xb13

def depositTopic : Bytes32 := 0x98e783c3864bbf744a057ef605a2a61701c3b62b5ed68b3745b99094497daf1f

def withdrawTopic : Bytes32 := 0x4591ca0897d0d8e83f7153dfe0b2912125672084ab8d84be59ee13240a1778bc

def slashedTopic : Bytes32 := 0xaa027002e2293d2bdf5dfdb36085da833212945f22a1bc33658aab00be192988

/-- `eth_getLogs` for an address and the topics that the first topic may be. -/
def getLogs (address : Address) (topics : List Bytes32) (logs : List Log) : List Log :=
  logs.filter fun l => l.address = address && l.topics.head?.any (· ∈ topics)

/-- The number with the digits, the most significant one first. -/
def fromDigits (base : ℕ) (digits : List ℕ) : ℕ := digits.foldl (fun n d => n * base + d) 0

def hexDigits (data : Bytes) : List ℕ := data.flatMap fun b => [b.toNat / 16, b.toNat % 16]

/-- `data_word_to_u64` of the ledger's side, on the hex digits of the data. -/
def hexWordToU64 (h : List ℕ) : ℕ :=
  if h.length ≤ 16 then fromDigits 16 h
  else if (h.take (h.length - 16)).any (· ≠ 0) then 2 ^ 64 - 1
  else fromDigits 16 (h.drop (h.length - 16))

/-- `data_word_to_u64` of the verifier's side. -/
def dataWordToU64 (data : Bytes) : ℕ :=
  if data.length < 8 then fromDigits 256 (data.map UInt8.toNat)
  else if (data.take (data.length - 8)).any (· ≠ 0) then 2 ^ 64 - 1
  else fromDigits 256 ((data.drop (data.length - 8)).map UInt8.toNat)

theorem foldl_hexDigits (data : Bytes) (n : ℕ) :
    (hexDigits data).foldl (fun n d => n * 16 + d) n =
      (data.map UInt8.toNat).foldl (fun n d => n * 256 + d) n := by
  induction data generalizing n with
  | nil => rfl
  | cons b data ih =>
    have hbyte : (n * 16 + b.toNat / 16) * 16 + b.toNat % 16 = n * 256 + b.toNat := by omega
    have hcons : hexDigits (b :: data) = b.toNat / 16 :: b.toNat % 16 :: hexDigits data := rfl
    rw [hcons, List.foldl_cons, List.foldl_cons, hbyte, ih, List.map_cons, List.foldl_cons]

theorem length_hexDigits (data : Bytes) : (hexDigits data).length = 2 * data.length := by
  induction data with
  | nil => rfl
  | cons b data ih =>
    have hcons : hexDigits (b :: data) = b.toNat / 16 :: b.toNat % 16 :: hexDigits data := rfl
    rw [hcons, List.length_cons, List.length_cons, List.length_cons, ih]
    omega

theorem hexDigits_append (a b : Bytes) : hexDigits (a ++ b) = hexDigits a ++ hexDigits b :=
  List.flatMap_append

theorem any_hexDigits (data : Bytes) : (hexDigits data).any (· ≠ 0) = data.any (· ≠ 0) := by
  induction data with
  | nil => rfl
  | cons b data ih =>
    have hcons : hexDigits (b :: data) = b.toNat / 16 :: b.toNat % 16 :: hexDigits data := rfl
    have hzero : b = 0 ↔ b.toNat = 0 := UInt8.toNat_inj.symm
    rw [hcons, List.any_cons, List.any_cons, List.any_cons, ih, ← Bool.or_assoc]
    congr 1
    rw [Bool.eq_iff_iff]
    simp only [ne_eq, Bool.or_eq_true, decide_eq_true_eq, hzero]
    omega

/-- Both sides read the same amount from the data of a log. -/
theorem hexWordToU64_hexDigits (data : Bytes) :
    hexWordToU64 (hexDigits data) = dataWordToU64 data := by
  have hdigits : ∀ d : Bytes, fromDigits 16 (hexDigits d) = fromDigits 256 (d.map UInt8.toNat) :=
    fun d => foldl_hexDigits d 0
  have hlen := length_hexDigits data
  unfold hexWordToU64 dataWordToU64
  by_cases hshort : data.length < 8
  · rw [if_pos (by omega), if_pos hshort, hdigits]
  · rw [if_neg hshort]
    have hsplit : hexDigits data =
        hexDigits (data.take (data.length - 8)) ++ hexDigits (data.drop (data.length - 8)) := by
      rw [← hexDigits_append, List.take_append_drop]
    by_cases height : data.length = 8
    · rw [if_pos (by omega), height, hdigits]
      simp
    · have hhigh : (hexDigits (data.take (data.length - 8))).length =
          (hexDigits data).length - 16 := by
        rw [length_hexDigits, List.length_take, hlen]
        omega
      rw [if_neg (by omega), ← hhigh, hsplit, List.take_left, List.drop_left, any_hexDigits,
        hdigits]

inductive StakeOp where
  | bond (amount : ℕ)
  | unbond (amount : ℕ)
  deriving DecidableEq

def parseStakeLog (log : Log) : Option (NodeId × StakeOp) :=
  match log.topics with
  | topic :: node :: _ =>
    let amount := hexWordToU64 (hexDigits log.data)
    if topic = depositTopic then some (node, .bond amount)
    else if topic = withdrawTopic then some (node, .unbond amount)
    else none
  | _ => none

def parseStakeLogs (logs : List Log) : List (NodeId × StakeOp) := logs.filterMap parseStakeLog

def parseSlashedLog (log : Log) : Option NodeId :=
  match log.topics with
  | topic :: node :: _ => if topic = slashedTopic then some node else none
  | _ => none

def parseSlashedLogs (logs : List Log) : List NodeId := logs.filterMap parseSlashedLog

/-! ### The ledger -/

structure ValidatorUpdate where
  nodeId : NodeId
  weight : ℕ
  deriving DecidableEq

structure Unbonding where
  amount : ℕ
  matureAt : ℕ
  deriving DecidableEq

structure BondedStakeLedger where
  stake : Table NodeId ℕ
  unbonding : Table NodeId (List Unbonding)
  currentHeight : ℕ
  pending : List ValidatorUpdate
  deriving DecidableEq

def unbondingDelay : ℕ := 512

namespace BondedStakeLedger

def seededFrom (genesis : List (NodeId × ℕ)) : BondedStakeLedger where
  stake := (genesis.filter fun e => 0 < e.2).foldl (fun t e => t.insert e.1 e.2) ∅
  unbonding := ∅
  currentHeight := 0
  pending := []

def stakeOf (l : BondedStakeLedger) (node : NodeId) : ℕ := (l.stake.get? node).getD 0

def apply (l : BondedStakeLedger) (node : NodeId) : StakeOp → BondedStakeLedger
  | .bond amount =>
    let next := saturatingAddU64 (l.stakeOf node) amount
    if next = l.stakeOf node then l
    else
      { l with
        stake := l.stake.insert node next
        pending := l.pending ++ [⟨node, next⟩] }
  | .unbond amount =>
    let moved := min amount (l.stakeOf node)
    if moved = 0 then l
    else
      let next := l.stakeOf node - moved
      { l with
        stake := if next = 0 then l.stake.erase node else l.stake.insert node next
        unbonding := l.unbonding.insert node ((l.unbonding.get? node).getD [] ++
          [⟨moved, saturatingAddU64 l.currentHeight unbondingDelay⟩])
        pending := l.pending ++ [⟨node, next⟩] }

def slash (l : BondedStakeLedger) (node : NodeId) : BondedStakeLedger :=
  { l with
    stake := l.stake.erase node
    unbonding := l.unbonding.erase node
    pending := if 0 < l.stakeOf node then l.pending ++ [⟨node, 0⟩] else l.pending }

def takeUpdates (l : BondedStakeLedger) : BondedStakeLedger × List ValidatorUpdate :=
  ({ l with pending := [] }, l.pending)

/-- Matured amounts leave the queues; an empty queue is dropped. -/
def advanceToHeight (l : BondedStakeLedger) (height : ℕ) : BondedStakeLedger :=
  let matured := l.unbonding.toList.foldl (fun t e =>
    let queue := e.2.filter fun u => height < u.matureAt
    if queue.isEmpty then t.erase e.1 else t.insert e.1 queue) l.unbonding
  { l with currentHeight := height, unbonding := matured }

/-- `derive_validator_updates` of an executed block with these logs: the staking operations,
then the slashes. -/
def deriveValidatorUpdates (l : BondedStakeLedger) (height : ℕ) (logs : List Log) :
    BondedStakeLedger × List ValidatorUpdate :=
  let ops := parseStakeLogs (getLogs stakingAddress [depositTopic, withdrawTopic] logs)
  let slashed := parseSlashedLogs (getLogs slashingAddress [slashedTopic] logs)
  let l := ops.foldl (fun l op => l.apply op.1 op.2) (l.advanceToHeight height)
  (slashed.foldl slash l).takeUpdates

end BondedStakeLedger

end Boule
