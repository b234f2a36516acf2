import Boule.HotStuff.Qc
import Boule.Lib.Table
import Boule.ValidatorHistory

/-! The replica state and its store of pending blocks. -/
namespace Boule

structure Locked where
  view : ℕ
  height : ℕ
  blockHash : BlockHash
  deriving DecidableEq

/-- `usize::MAX` on a 64-bit target. -/
def usizeMax : ℕ := 2 ^ 64 - 1

/-- The eviction counters, which only feed metrics, are left out. -/
structure HotStuffState where
  currentView : ℕ
  locked : Option Locked
  highQc : Option QuorumCertificate
  lastVotedView : ℕ
  validatorSet : ValidatorSet
  validatorHistory : ValidatorSetHistory
  pendingBlocks : Table BlockHash Block
  genesisHash : BlockHash
  pendingBlocksCapacity : ℕ
  deriving DecidableEq

namespace HotStuffState

def protectedHighQcDepth : ℕ := 4

def new (P : Primitives) (validatorSet : ValidatorSet) (genesis : Block) : HotStuffState where
  currentView := 0
  locked := none
  highQc := none
  lastVotedView := 0
  validatorSet := validatorSet
  validatorHistory := .fromGenesis validatorSet
  pendingBlocks := AList.insert (genesis.hash P) genesis ∅
  genesisHash := genesis.hash P
  pendingBlocksCapacity := usizeMax

def setPendingBlocksLimit (s : HotStuffState) (capacity : ℕ) : HotStuffState :=
  { s with pendingBlocksCapacity := capacity }

/-- The walk from the high certificate's block towards its ancestors. -/
def protectAncestors (pending : Table BlockHash Block) :
    ℕ → BlockHash → List BlockHash → List BlockHash
  | 0, _, out => out
  | depth + 1, cursor, out =>
    if cursor ∈ out then out
    else
      match pending.get? cursor with
      | none => cursor :: out
      | some b => protectAncestors pending depth b.header.parentHash (cursor :: out)

def protectedBlockHashes (s : HotStuffState) : List BlockHash :=
  match s.highQc with
  | none => [s.genesisHash]
  | some qc => protectAncestors s.pendingBlocks protectedHighQcDepth qc.blockHash [s.genesisHash]

/-- The unprotected block of least height, the least hash breaking ties. -/
def pendingVictim (s : HotStuffState) : Option (BlockHash × Block) :=
  (s.pendingBlocks.retain fun h _ => h ∉ s.protectedBlockHashes).minBy
    fun h b => toLex (b.header.height, h)

def evictPendingToFitOne (s : HotStuffState) : HotStuffState :=
  if s.pendingBlocks.size < s.pendingBlocksCapacity then s
  else
    match s.pendingVictim with
    | none => s
    | some (victimHash, _) => { s with pendingBlocks := s.pendingBlocks.erase victimHash }

def insertPending (P : Primitives) (s : HotStuffState) (block : Block) : HotStuffState :=
  let hash := block.hash P
  let s := if s.pendingBlocks.containsKey hash then s else s.evictPendingToFitOne
  { s with pendingBlocks := s.pendingBlocks.insert hash block }

def getPending (s : HotStuffState) (hash : BlockHash) : Option Block := s.pendingBlocks.get? hash

theorem evictPendingToFitOne_eq (s : HotStuffState) :
    s.evictPendingToFitOne = { s with pendingBlocks := s.evictPendingToFitOne.pendingBlocks } := by
  unfold evictPendingToFitOne
  split_ifs
  · rfl
  · cases s.pendingVictim <;> rfl

/-- Inserting changes the pending blocks and nothing else. -/
theorem insertPending_eq (P : Primitives) (s : HotStuffState) (b : Block) :
    s.insertPending P b = { s with pendingBlocks := (s.insertPending P b).pendingBlocks } := by
  have he := s.evictPendingToFitOne_eq
  unfold insertPending
  by_cases hc : s.pendingBlocks.containsKey (b.hash P) = true
  · simp only [if_pos hc]
  · simp only [if_neg hc]
    rw [he]

section insertPending
variable (P : Primitives) (s : HotStuffState) (b : Block)

@[simp] theorem insertPending_locked : (s.insertPending P b).locked = s.locked := by
  rw [insertPending_eq]

@[simp] theorem insertPending_lastVotedView :
    (s.insertPending P b).lastVotedView = s.lastVotedView := by
  rw [insertPending_eq]

@[simp] theorem insertPending_highQc : (s.insertPending P b).highQc = s.highQc := by
  rw [insertPending_eq]

@[simp] theorem insertPending_currentView :
    (s.insertPending P b).currentView = s.currentView := by
  rw [insertPending_eq]

@[simp] theorem insertPending_validatorHistory :
    (s.insertPending P b).validatorHistory = s.validatorHistory := by
  rw [insertPending_eq]

@[simp] theorem insertPending_validatorSet :
    (s.insertPending P b).validatorSet = s.validatorSet := by
  rw [insertPending_eq]

@[simp] theorem insertPending_genesisHash :
    (s.insertPending P b).genesisHash = s.genesisHash := by
  rw [insertPending_eq]

@[simp] theorem insertPending_pendingBlocksCapacity :
    (s.insertPending P b).pendingBlocksCapacity = s.pendingBlocksCapacity := by
  rw [insertPending_eq]

end insertPending

theorem getPending_of_evict {s : HotStuffState} {h : BlockHash} {b : Block}
    (hb : s.evictPendingToFitOne.getPending h = some b) : s.getPending h = some b := by
  unfold evictPendingToFitOne at hb
  split_ifs at hb
  · exact hb
  · cases hv : s.pendingVictim with
    | none => rwa [hv] at hb
    | some v =>
      rw [hv] at hb
      exact Table.get?_of_erase hb

@[simp] theorem getPending_insertPending_self (P : Primitives) (s : HotStuffState) (b : Block) :
    (s.insertPending P b).getPending (b.hash P) = some b :=
  Table.get?_insert_self _ _ _

/-- Whatever the insertion leaves behind is the block itself or was there before. -/
theorem getPending_of_insertPending {P : Primitives} {s : HotStuffState} {b b' : Block}
    {h : BlockHash} (hb : (s.insertPending P b).getPending h = some b') :
    (h = b.hash P ∧ b' = b) ∨ s.getPending h = some b' := by
  unfold insertPending getPending at hb
  rw [Table.get?_insert] at hb
  split_ifs at hb with he hc
  · exact .inl ⟨he, (Option.some.inj hb).symm⟩
  · exact .inr hb
  · exact .inr (getPending_of_evict hb)

/-- The pending blocks have room for `b`, so inserting it evicts nothing. -/
def HasRoomFor (P : Primitives) (s : HotStuffState) (b : Block) : Prop :=
  s.pendingBlocks.containsKey (b.hash P) = true ∨
    s.pendingBlocks.size < s.pendingBlocksCapacity

instance (P : Primitives) (s : HotStuffState) (b : Block) : Decidable (s.HasRoomFor P b) :=
  inferInstanceAs (Decidable (_ ∨ _))

theorem HasRoomFor.getPending_insertPending {P : Primitives} {s : HotStuffState} {b : Block}
    (hr : s.HasRoomFor P b) (h : BlockHash) :
    (s.insertPending P b).getPending h = if h = b.hash P then some b else s.getPending h := by
  unfold insertPending getPending
  rw [Table.get?_insert]
  rcases hr with hc | hs
  · rw [if_pos hc]
  · have he : s.evictPendingToFitOne = s := if_pos hs
    rw [he, ite_self]

end HotStuffState

end Boule
