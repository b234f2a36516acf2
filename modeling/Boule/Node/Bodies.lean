import Boule.Node.Blocks

/-! Block bodies and the hashes they are stored and committed under. A hash covers the header
only; the header names its commands by their commitment. -/
namespace Boule

/-- The header commits to the block's commands. -/
def BodyBound (P : Primitives) (b : Block) : Prop :=
  P.commandsHash b.commands = b.header.commandsCommitment

instance (P : Primitives) : DecidablePred (BodyBound P) :=
  fun _ => inferInstanceAs (Decidable (_ = _))

/-- SHA-256 does not collide on the headers and the bodies of these blocks. -/
structure CollisionFree (P : Primitives) (blocks : List Block) : Prop where
  header : ∀ b ∈ blocks, ∀ b' ∈ blocks,
    P.headerHash b.header = P.headerHash b'.header → b.header = b'.header
  commands : ∀ b ∈ blocks, ∀ b' ∈ blocks,
    P.commandsHash b.commands = P.commandsHash b'.commands → b.commands = b'.commands

theorem bodyBound_genesis (P : Primitives) (cfg : NodeConfig) : BodyBound P (cfg.genesis P) := rfl

/-- Bound bodies under one hash are one body. -/
theorem commands_eq_of_hash_eq {P : Primitives} {blocks : List Block}
    (hfree : CollisionFree P blocks) {b b' : Block} (hb : b ∈ blocks) (hb' : b' ∈ blocks)
    (hbound : BodyBound P b) (hbound' : BodyBound P b') (hh : b.hash P = b'.hash P) :
    b.commands = b'.commands := by
  have hheader : b.header = b'.header := hfree.header b hb b' hb' hh
  apply hfree.commands b hb b' hb'
  calc P.commandsHash b.commands = b.header.commandsCommitment := hbound
    _ = b'.header.commandsCommitment := by rw [hheader]
    _ = P.commandsHash b'.commands := hbound'.symm

/-- Two runs into which only blocks with bound bodies are inserted: pending blocks are under
their own hashes and bound, and commits of one hash are commits of one body. -/
theorem bodies_bound_of_insertsAll (P : Primitives) (V V' : Verifier)
    (R R' : ReconfigPrimitives) (cfg cfg' : NodeConfig) {inputs inputs' : List NodeInput}
    (h : Along (Machine.step P V R cfg) (InsertsAll P (BodyBound P)) .start inputs)
    (h' : Along (Machine.step P V' R' cfg') (InsertsAll P (BodyBound P)) .start inputs')
    {blocks : List Block} (hfree : CollisionFree P blocks) :
    (∀ p ∈ (run (Machine.step P V R cfg) .start inputs).process, ∀ hash b,
      p.node.core.state.getPending hash = some b → b.hash P = hash ∧ BodyBound P b) ∧
    ∀ b ∈ blocks, ∀ b' ∈ blocks,
      .commit b ∈ (run (Machine.step P V R cfg) .start inputs).emitted →
      .commit b' ∈ (run (Machine.step P V' R' cfg') .start inputs').emitted →
      b.hash P = b'.hash P → b.commands = b'.commands := by
  have hm := BlocksAll.run (bodyBound_genesis P cfg) h
  have hm' := BlocksAll.run (bodyBound_genesis P cfg') h'
  constructor
  · exact hm.pending
  · intro b hb b' hb' hc hc' hh
    exact commands_eq_of_hash_eq hfree hb hb' (hm.emitted b hc) (hm'.emitted b' hc') hh

instance (P : Primitives) (blocks : List Block) : Decidable (CollisionFree P blocks) :=
  decidable_of_iff ((∀ b ∈ blocks, ∀ b' ∈ blocks, _ → _) ∧
      ∀ b ∈ blocks, ∀ b' ∈ blocks, _ → _)
    ⟨fun h => ⟨h.1, h.2⟩, fun h => ⟨h.header, h.commands⟩⟩

namespace Sample

/-- The head of a chain through consecutive views, with the given body under its header. -/
def head (body : List Bytes) : Block := { blockOn root 1 0 [[7]] with commands := body }

def second : Block := blockOn (head [[7]]) 2 0 []
def third : Block := blockOn second 3 0 []
def fourth : Block := blockOn third 4 0 []

/-- The chain is proposed block by block; the last proposal commits its head. -/
def proposeChain (body : List Bytes) : List NodeInput :=
  [.boot, proposed (head body) (genesisQc timed root validators),
    proposed second (certificate (head body)), proposed third (certificate second),
    proposed fourth (certificate third)]

theorem chain_body_committed :
    .commit (head [[7]]) ∈ (run stepNode .start (proposeChain [[7]])).emitted ∧
    (∀ p ∈ (run stepNode .start (proposeChain [[7]])).process, ∀ hash b,
      p.node.core.state.getPending hash = some b → b.hash timed = hash ∧ BodyBound timed b) ∧
    ∀ b ∈ [head [[7]], second], ∀ b' ∈ [head [[7]], second],
      .commit b ∈ (run stepNode .start (proposeChain [[7]])).emitted →
      .commit b' ∈ (run stepNode .start (proposeChain [[7]])).emitted →
      b.hash timed = b'.hash timed → b.commands = b'.commands := by
  refine ⟨by decide +kernel, ?_⟩
  have hinserts : Along stepNode (InsertsAll timed (BodyBound timed)) .start
      (proposeChain [[7]]) := by decide +kernel
  exact bodies_bound_of_insertsAll timed verifier verifier reconfigs reconfigs config config
    hinserts hinserts (by decide +kernel)

/-- A leader that sends the header with another body: ingress lets it in, the body is pending
unbound, and two nodes commit different commands under one hash. -/
theorem body_unbound :
    ingressProposal verifier context (signedOn (head []) (genesisQc timed root validators)) =
      .ok (proposalDispatches (signedOn (head []) (genesisQc timed root validators))) ∧
    (∃ p ∈ (run stepNode .start ((proposeChain []).take 2)).process,
      p.node.core.state.getPending ((head []).hash timed) = some (head [])) ∧
    ¬ BodyBound timed (head []) ∧
    CollisionFree timed [head [[7]], head []] ∧
    .commit (head [[7]]) ∈ (run stepNode .start (proposeChain [[7]])).emitted ∧
    .commit (head []) ∈ (run stepNode .start (proposeChain [])).emitted ∧
    (head [[7]]).hash timed = (head []).hash timed ∧
    (head [[7]]).commands ≠ (head []).commands := by
  decide +kernel

end Sample

end Boule
