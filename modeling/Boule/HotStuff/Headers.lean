import Boule.HotStuff.Core
import Mathlib.Logic.Relation

/-! The headers of a run, tied into a forest by their hashes. -/
namespace Boule

/-- The headers that occur in a run. SHA-256 is taken to be collision free on them and to miss
the all-zero hash, which the genesis block names as its parent. -/
structure HeaderPool (P : Primitives) where
  headers : List BlockHeader
  stateCommitment : Bytes32
  historyCommitment : Bytes32
  genesis_mem : (Block.genesis P stateCommitment historyCommitment).header ∈ headers
  hash_injective : ∀ h ∈ headers, ∀ h' ∈ headers, P.headerHash h = P.headerHash h' → h = h'
  hash_ne_zero : ∀ h ∈ headers, P.headerHash h ≠ 0

namespace HeaderPool
variable {P : Primitives} (U : HeaderPool P)

def genesis : Block := Block.genesis P U.stateCommitment U.historyCommitment

/-- `y` is the parent of `x`. -/
structure Parent (x y : BlockHeader) : Prop where
  child_mem : x ∈ U.headers
  parent_mem : y ∈ U.headers
  hash_eq : x.parentHash = P.headerHash y

/-- `x` is `y` or a descendant of `y`. -/
def Extends (x y : BlockHeader) : Prop := Relation.ReflTransGen U.Parent x y

/-- The proposal extends `q` by one height, and its certificate names `q`. -/
structure ProposedOn (p : Proposal) (q : BlockHeader) : Prop where
  parent : U.Parent p.block.header q
  height_eq : p.block.header.height = q.height + 1
  justify_hash : p.justify.blockHash = P.headerHash q
  justify_view : p.justify.view = q.view

variable {U}

theorem Parent.unique {x y y' : BlockHeader} (h : U.Parent x y) (h' : U.Parent x y') : y = y' :=
  U.hash_injective y h.parent_mem y' h'.parent_mem (h.hash_eq.symm.trans h'.hash_eq)

theorem not_parent_genesis (y : BlockHeader) : ¬ U.Parent U.genesis.header y := by
  intro h
  exact U.hash_ne_zero y h.parent_mem h.hash_eq.symm

theorem Parent.ne_genesis {x y : BlockHeader} (h : U.Parent x y) : x ≠ U.genesis.header := by
  rintro rfl
  exact not_parent_genesis y h

/-- Headers that reach genesis through parents one height below. -/
inductive Grounded : BlockHeader → Prop
  | genesis : Grounded U.genesis.header
  | child {x y : BlockHeader} (parent_grounded : Grounded y) (parent : U.Parent x y)
      (height_eq : x.height = y.height + 1) : Grounded x

theorem Grounded.mem {x : BlockHeader} (h : U.Grounded x) : x ∈ U.headers := by
  cases h with
  | genesis => exact U.genesis_mem
  | child _ hp _ => exact hp.child_mem

theorem Grounded.parent {x y : BlockHeader} (h : U.Grounded x) (hp : U.Parent x y) :
    U.Grounded y ∧ x.height = y.height + 1 := by
  cases h with
  | genesis => exact absurd hp (not_parent_genesis y)
  | child hg hp' hh =>
    obtain rfl := hp'.unique hp
    exact ⟨hg, hh⟩

theorem Grounded.eq_genesis_of_height {x : BlockHeader} (h : U.Grounded x) (hh : x.height = 0) :
    x = U.genesis.header := by
  cases h with
  | genesis => rfl
  | child _ _ hx => omega

theorem Grounded.height_le {x y : BlockHeader} (h : U.Grounded x) (he : U.Extends x y) :
    y.height ≤ x.height := by
  induction he using Relation.ReflTransGen.head_induction_on with
  | refl => exact Nat.le_refl _
  | head hp _ ih =>
    obtain ⟨hg, hh⟩ := h.parent hp
    have hle := ih hg
    omega

theorem Grounded.eq_of_extends {x y : BlockHeader} (h : U.Grounded x) (he : U.Extends x y)
    (hh : x.height = y.height) : x = y := by
  rcases Relation.ReflTransGen.cases_head he with heq | ⟨z, hz, hzy⟩
  · exact heq
  · obtain ⟨hg, hx⟩ := h.parent hz
    have hle := hg.height_le hzy
    omega

theorem Grounded.of_extends {x y : BlockHeader} (h : U.Grounded x) (he : U.Extends x y) :
    U.Grounded y := by
  induction he with
  | refl => exact h
  | tail _ hp ih => exact (ih.parent hp).1

/-- A chain down to genesis has a header at each height. -/
theorem Grounded.exists_height {x : BlockHeader} (h : U.Grounded x) {n : ℕ} (hn : n ≤ x.height) :
    ∃ y, U.Extends x y ∧ y.height = n := by
  induction h with
  | genesis =>
    have hzero : U.genesis.header.height = 0 := rfl
    exact ⟨_, .refl, by omega⟩
  | @child x y hg hp hh ih =>
    by_cases htop : n = x.height
    · exact ⟨x, .refl, htop.symm⟩
    · obtain ⟨z, hz, hheight⟩ := ih (by omega)
      exact ⟨z, .head hp hz, hheight⟩

/-- Headers of one chain at one height are one. -/
theorem Grounded.eq_of_height {x y z : BlockHeader} (h : U.Grounded x) (hy : U.Extends x y)
    (hz : U.Extends x z) (hheight : y.height = z.height) : y = z := by
  have hunique : Relator.RightUnique U.Parent := fun _ _ _ hp hp' => hp.unique hp'
  rcases hy.total_of_right_unique hunique hz with hyz | hzy
  · exact (h.of_extends hy).eq_of_extends hyz hheight
  · exact ((h.of_extends hz).eq_of_extends hzy hheight.symm).symm

/-- What a replica starts from: the genesis block is pending, nothing is locked or voted. -/
theorem getPending_new {vs : ValidatorSet} {capacity : ℕ} {h : BlockHash} {b : Block}
    (hb : ((HotStuffState.new P vs U.genesis).setPendingBlocksLimit capacity).getPending h =
      some b) : h = U.genesis.hash P ∧ b = U.genesis := by
  have hb' : Table.get? (AList.insert (U.genesis.hash P) U.genesis ∅) h = some b := hb
  rw [Table.get?_insert, Table.get?_empty] at hb'
  split_ifs at hb' with he
  exact ⟨he, (Option.some.inj hb').symm⟩

instance (x y : BlockHeader) : Decidable (U.Parent x y) :=
  decidable_of_iff (x ∈ U.headers ∧ y ∈ U.headers ∧ x.parentHash = P.headerHash y)
    ⟨fun h => ⟨h.1, h.2.1, h.2.2⟩, fun h => ⟨h.child_mem, h.parent_mem, h.hash_eq⟩⟩

instance (p : Proposal) (q : BlockHeader) : Decidable (U.ProposedOn p q) :=
  decidable_of_iff (_ ∧ _ ∧ _ ∧ _)
    ⟨fun h => ⟨h.1, h.2.1, h.2.2.1, h.2.2.2⟩,
      fun h => ⟨h.parent, h.height_eq, h.justify_hash, h.justify_view⟩⟩

end HeaderPool

/-! ### A small instance

Four validators of weight one, and blocks that their views tell apart. -/

namespace Sample

/-- A hash that is collision free on headers of pairwise different views. -/
def primitives : Primitives where
  headerHash := fun h => h.view + 1
  commandsHash := fun c => c.length
  addSignature := fun a b => a + b

def validators : ValidatorSet where
  members := [1, 2, 3, 4]
  weights := [1, 1, 1, 1]
  sorted := by decide
  weights_length := by decide
  weights_ne_zero := by simp
  length_lt := by decide

def genesis : Block := Block.genesis primitives 0 0

/-- An empty block of the given view on top of `parent`. -/
def child (parent : Block) (view : ℕ) : Block where
  header :=
    { parentHash := parent.hash primitives
      height := parent.header.height + 1
      view := view
      proposer := 1
      stateCommitment := 0
      commandsCommitment := 0
      validatorHistoryCommitment := 0
      committedHeight := 0
      committedStateRoot := 0
      timestamp := 0 }
  commands := []

/-- The certificate of `b` with the given signers. -/
def certify (b : Block) (signers : List ℕ) : QuorumCertificate where
  view := b.header.view
  blockHash := b.hash primitives
  signers := signers.foldl SignerBitmap.set (.new 4)
  signatures := if signers.isEmpty then emptyAggregate else 1

def propose (parent : Block) (view : ℕ) (signers : List ℕ) : Proposal :=
  ⟨child parent view, certify parent signers⟩

def order : IterOrder where
  apply := id
  perm := List.Perm.refl

def d₁ : Proposal := propose genesis 1 []
def d₂ : Proposal := propose d₁.block 2 [0, 1, 3]
def d₃ : Proposal := propose d₂.block 3 [0, 1, 3]
def d₄ : Proposal := propose d₃.block 4 [0, 1, 3]

/-- One chain through consecutive views. -/
def straightPool : HeaderPool primitives where
  headers := genesis.header :: [d₁, d₂, d₃, d₄].map fun p => p.block.header
  stateCommitment := 0
  historyCommitment := 0
  genesis_mem := List.mem_cons_self ..
  hash_injective := by decide
  hash_ne_zero := by decide

def received (p : Proposal) : Event := .proposalReceived ⟨⟨p, 1, 0⟩, 1⟩

end Sample

end Boule
