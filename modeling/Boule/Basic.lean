import Boule.Lib.Checks
import Mathlib.Data.BitVec

/-! Scalars, blocks and the functions the code takes from its cryptographic dependencies.
Views and heights (`View(u64)`, `Height(u64)`) are natural numbers; where the code adds to
one, the model adds modulo `2 ^ 64`. -/
namespace Boule

/-- `u64` addition as an unchecked release build computes it. -/
def addU64 (a b : ℕ) : ℕ := (a + b) % 2 ^ 64

def checkedAddU64 (a b : ℕ) : Option ℕ := if a + b < 2 ^ 64 then some (a + b) else none

def saturatingAddU32 (a b : ℕ) : ℕ := min (a + b) (2 ^ 32 - 1)

def saturatingAddU128 (a b : ℕ) : ℕ := min (a + b) (2 ^ 128 - 1)

def saturatingMulU128 (a b : ℕ) : ℕ := min (a * b) (2 ^ 128 - 1)

/-- A 32-byte array as a number. Hashes, node ids and commitments are only ever compared,
and byte order agrees with the order of the numbers. -/
abbrev Bytes32 := ℕ

abbrev NodeId := Bytes32

abbrev ValidatorId := NodeId

abbrev BlockHash := Bytes32

abbrev Bytes := List UInt8

/-- A compressed 96-byte BLS signature; `0` is the sentinel of the empty aggregate. -/
abbrev BlsPartialSig := ℕ

abbrev BlsAggregate := ℕ

abbrev BlsPublicKey := ℕ

structure BlockHeader where
  parentHash : BlockHash
  height : ℕ
  view : ℕ
  proposer : NodeId
  stateCommitment : Bytes32
  commandsCommitment : Bytes32
  validatorHistoryCommitment : Bytes32
  committedHeight : ℕ
  committedStateRoot : Bytes32
  timestamp : ℕ
  deriving DecidableEq

structure Block where
  header : BlockHeader
  commands : List Bytes
  deriving DecidableEq

/-- SHA-256 over postcard bytes and the group operation on BLS signatures. -/
structure Primitives where
  headerHash : BlockHeader → BlockHash
  commandsHash : List Bytes → Bytes32
  addSignature : BlsAggregate → BlsPartialSig → BlsAggregate

namespace Block

def hash (P : Primitives) (b : Block) : BlockHash := P.headerHash b.header

def genesis (P : Primitives) (stateCommitment validatorHistoryCommitment : Bytes32) : Block where
  header :=
    { parentHash := 0
      height := 0
      view := 0
      proposer := 0
      stateCommitment := stateCommitment
      commandsCommitment := P.commandsHash []
      validatorHistoryCommitment := validatorHistoryCommitment
      committedHeight := 0
      committedStateRoot := stateCommitment
      timestamp := 0 }
  commands := []

end Block

/-- The failures of `validate_structural`, with the values their messages print. -/
inductive StructuralError where
  | parentHashMismatch (claimed actual : BlockHash)
  | parentHeightOverflow (height : ℕ)
  | heightMismatch (expected got : ℕ)
  | viewNotIncreasing (parent child : ℕ)
  | commandsCommitmentMismatch (header recomputed : Bytes32)
  | timestampDecreases (parent child : ℕ)
  deriving DecidableEq

def validateStructural (P : Primitives) (child : Block) (parentHeader : BlockHeader) :
    Except StructuralError Unit := do
  let parentHash := P.headerHash parentHeader
  require (child.header.parentHash = parentHash)
    (.parentHashMismatch child.header.parentHash parentHash)
  let expectedHeight ← okOr (checkedAddU64 parentHeader.height 1)
    (.parentHeightOverflow parentHeader.height)
  require (child.header.height = expectedHeight)
    (.heightMismatch expectedHeight child.header.height)
  require (parentHeader.view < child.header.view)
    (.viewNotIncreasing parentHeader.view child.header.view)
  let recomputed := P.commandsHash child.commands
  require (child.header.commandsCommitment = recomputed)
    (.commandsCommitmentMismatch child.header.commandsCommitment recomputed)
  require (parentHeader.timestamp ≤ child.header.timestamp)
    (.timestampDecreases parentHeader.timestamp child.header.timestamp)

theorem checkedAddU64_eq_some {a b c : ℕ} :
    checkedAddU64 a b = some c ↔ c = a + b ∧ c < 2 ^ 64 := by
  unfold checkedAddU64
  constructor
  · intro h
    split_ifs at h with hlt
    obtain rfl := Option.some.inj h
    exact ⟨rfl, hlt⟩
  · rintro ⟨rfl, hlt⟩
    exact if_pos hlt

end Boule
