import Boule.HotStuff.Headers
import Boule.HotStuff.Calls
import Boule.Lib.Run

/-! The order of commits at one replica. The commit rule emits the head of a three-chain only;
blocks between two heads are never emitted. -/
namespace Boule

/-- A core with the blocks it has committed so far. -/
structure Replica where
  core : HotStuffCore
  commits : List Block

structure Input where
  order : IterOrder
  event : Event

namespace Replica

def start (P : Primitives) (id : NodeId) (vs : ValidatorSet) (genesis : Block)
    (limits : CacheLimits) : Replica where
  core := .withLimits id (.new P vs genesis) limits
  commits := []

def step (P : Primitives) (r : Replica) (i : Input) : Replica :=
  let (core, actions) := r.core.step P i.order i.event
  ⟨core, r.commits ++ actions.filterMap Action.committed?⟩

end Replica

section
variable {P : Primitives} (U : HeaderPool P)

/-- One chain from genesis, without gap or repeat. -/
structure InOrder (blocks : List Block) : Prop where
  first : ∀ b ∈ blocks.head?, b.header = U.genesis.header ∨
    b.header.parentHash = U.genesis.hash P
  next : blocks.IsChain fun a b => b.header.parentHash = a.hash P
  heights : blocks.IsChain fun a b => a.header.height < b.header.height

/-- Delivered proposals extend their parents by one height and certify them. -/
def ProposesOnParent (e : Event) : Prop :=
  ∀ signed ∈ e.proposal?, ∃ q ∈ U.headers, U.ProposedOn signed.payload q

/-- The header of the oldest of three blocks in consecutive views, under a fourth one. -/
def ThreeChainHead (x : BlockHeader) : Prop :=
  ∃ b₂ b₃ b₄, U.Parent b₄ b₃ ∧ U.Parent b₃ b₂ ∧ U.Parent b₂ x ∧
    addU64 x.view 1 = b₂.view ∧ addU64 b₂.view 1 = b₃.view

/-- Three-chains of the pool do not conflict. -/
def NoConflict : Prop :=
  ∀ x y, ThreeChainHead U x → ThreeChainHead U y → U.Extends x y ∨ U.Extends y x

/-- When the commit rule fires, the parent of the block it commits is genesis or has left the
pending blocks. -/
def AcceptCall.CommitsNext (call : AcceptCall) : Prop :=
  ∀ b ∈ call.1.commits P call.2, b.header = U.genesis.header ∨
    b.header.parentHash = U.genesis.hash P ∨ call.1.getPending b.header.parentHash = none

/-- The condition under which a step commits in order. -/
def CommitsInOrder (r : Replica) (i : Input) : Prop :=
  ∀ call ∈ r.core.stepCalls P i.order i.event,
    call.CommitsNext U ∧ call.1.HasRoomFor P call.2.block

instance : DecidablePred (ProposesOnParent U) := fun e =>
  inferInstanceAs (Decidable (∀ signed ∈ e.proposal?, _))

instance : DecidablePred (ThreeChainHead U) := fun x =>
  decidable_of_iff (∃ b₂ ∈ U.headers, ∃ b₃ ∈ U.headers, ∃ b₄ ∈ U.headers,
      U.Parent b₄ b₃ ∧ U.Parent b₃ b₂ ∧ U.Parent b₂ x ∧
        addU64 x.view 1 = b₂.view ∧ addU64 b₂.view 1 = b₃.view)
    ⟨fun ⟨b₂, _, b₃, _, b₄, _, h⟩ => ⟨b₂, b₃, b₄, h⟩,
      fun ⟨b₂, b₃, b₄, h⟩ => ⟨b₂, h.2.1.parent_mem, b₃, h.1.parent_mem, b₄, h.1.child_mem, h⟩⟩

instance : DecidablePred (AcceptCall.CommitsNext U) := fun call =>
  inferInstanceAs (Decidable (∀ b ∈ call.1.commits P call.2, _))

instance (r : Replica) (i : Input) : Decidable (CommitsInOrder U r i) :=
  inferInstanceAs (Decidable (∀ call ∈ r.core.stepCalls P i.order i.event, _))

end

namespace CommitOrder
variable {P : Primitives} {U : HeaderPool P}

variable (U)

/-- The invariant of the state and of the blocks committed so far. -/
structure StateOk (blocks : List Block) (s : HotStuffState) : Prop where
  keyed : ∀ {h b}, s.getPending h = some b → P.headerHash b.header = h
  grounded : ∀ {h b}, s.getPending h = some b → U.Grounded b.header
  rooted : ∀ {h b}, s.getPending h = some b → b.header = U.genesis.header ∨
    (∃ q, s.getPending b.header.parentHash = some q) ∨
      ∃ d ∈ blocks.getLast?, d.header.height + 1 = b.header.height
  above : ∀ {h b}, s.getPending h = some b →
    ∀ d ∈ blocks.getLast?, d.header.height < b.header.height
  last : ∀ d ∈ blocks.getLast?, U.Grounded d.header ∧ ThreeChainHead U d.header
  inOrder : InOrder U blocks

variable {U}

theorem stateOk_new (vs : ValidatorSet) (capacity : ℕ) :
    StateOk U [] ((HotStuffState.new P vs U.genesis).setPendingBlocksLimit capacity) := by
  constructor
  · intro h b hb
    obtain ⟨rfl, rfl⟩ := HeaderPool.getPending_new hb
    rfl
  · intro h b hb
    obtain ⟨rfl, rfl⟩ := HeaderPool.getPending_new hb
    exact .genesis
  · intro h b hb
    obtain ⟨rfl, rfl⟩ := HeaderPool.getPending_new hb
    exact .inl rfl
  · simp
  · simp
  · exact ⟨by simp, .nil, .nil⟩

theorem StateOk.same {blocks : List Block} {s s' : HotStuffState}
    (hs : HotStuffState.SameSafety s s') (h : StateOk U blocks s) : StateOk U blocks s' := by
  have hget : ∀ k, s'.getPending k = s.getPending k := fun k => by
    unfold HotStuffState.getPending
    rw [hs.pendingBlocks]
  constructor
  · exact fun hb => h.keyed (hget _ ▸ hb)
  · exact fun hb => h.grounded (hget _ ▸ hb)
  · intro k b hb
    rw [hget]
    exact h.rooted (hget k ▸ hb)
  · exact fun hb => h.above (hget _ ▸ hb)
  · exact h.last
  · exact h.inOrder

section accept
variable {blocks : List Block} {s : HotStuffState} {p : Proposal} {q : BlockHeader}

theorem StateOk.parent (hs : StateOk U blocks s) {h : BlockHash} {b y : Block}
    (hb : s.getPending h = some b) (hy : s.getPending b.header.parentHash = some y) :
    U.Parent b.header y.header :=
  ⟨(hs.grounded hb).mem, (hs.grounded hy).mem, (hs.keyed hy).symm⟩

theorem StateOk.insertPending (hs : StateOk U blocks s) (hon : U.ProposedOn p q)
    (hp : s.pendingBlocks.containsKey p.block.header.parentHash = true)
    (hr : s.HasRoomFor P p.block) : StateOk U blocks (s.insertPending P p.block) := by
  obtain ⟨y, hy⟩ := (Table.containsKey_iff _ _).mp hp
  have hyq : y.header = q := U.hash_injective _ (hs.grounded hy).mem _ hon.parent.parent_mem
    ((hs.keyed hy).trans hon.parent.hash_eq)
  have hmono : ∀ {h b}, s.getPending h = some b →
      ∃ b', (s.insertPending P p.block).getPending h = some b' := by
    intro h b hb
    rw [hr.getPending_insertPending]
    split_ifs
    · exact ⟨_, rfl⟩
    · exact ⟨b, hb⟩
  constructor
  · intro h b hb
    rcases HotStuffState.getPending_of_insertPending hb with ⟨rfl, rfl⟩ | hb
    · rfl
    · exact hs.keyed hb
  · intro h b hb
    rcases HotStuffState.getPending_of_insertPending hb with ⟨rfl, rfl⟩ | hb
    · exact .child (hyq ▸ hs.grounded hy) hon.parent hon.height_eq
    · exact hs.grounded hb
  · intro h b hb
    rcases HotStuffState.getPending_of_insertPending hb with ⟨rfl, rfl⟩ | hb
    · exact .inr (.inl (hmono hy))
    · rcases hs.rooted hb with hg | ⟨y', hy'⟩ | hd
      · exact .inl hg
      · exact .inr (.inl (hmono hy'))
      · exact .inr (.inr hd)
  · intro h b hb d hd
    rcases HotStuffState.getPending_of_insertPending hb with ⟨rfl, rfl⟩ | hb
    · have habove := hs.above hy d hd
      have hheight := hon.height_eq
      rw [hyq] at habove
      omega
    · exact hs.above hb d hd
  · exact hs.last
  · exact hs.inOrder

/-- What the commit rule finds under a proposal. -/
theorem head_of_commits (hs : StateOk U blocks (s.insertPending P p.block))
    (hon : U.ProposedOn p q) {c : Block} (hc : s.commits P p = some c) :
    (∃ h, (s.insertPending P p.block).getPending h = some c) ∧ ThreeChainHead U c.header ∧
      c.header.height + 2 = q.height := by
  obtain ⟨b₂, b₃, h₃, h₂, h₁, -, hn₃, hn₂⟩ := threeChain_of_threeChainCommit hc
  have hq : b₃.header = q := U.hash_injective _ (hs.grounded h₃).mem _ hon.parent.parent_mem
    ((hs.keyed h₃).trans hon.justify_hash)
  have hp₃ := hs.parent h₃ h₂
  have hp₂ := hs.parent h₂ h₁
  refine ⟨⟨_, h₁⟩, ⟨b₂.header, b₃.header, p.block.header, hq ▸ hon.parent, hp₃, hp₂, hn₂, hn₃⟩, ?_⟩
  have hh₃ := ((hs.grounded h₃).parent hp₃).2
  have hh₂ := ((hs.grounded h₂).parent hp₂).2
  rw [hq] at hh₃
  omega

/-- The committed block follows the last one committed. -/
theorem follows_last (hs : StateOk U blocks (s.insertPending P p.block))
    (hon : U.ProposedOn p q) (hfork : NoConflict U) (hnext : AcceptCall.CommitsNext U (s, p))
    {c : Block} (hc : s.commits P p = some c) :
    (blocks = [] → c.header = U.genesis.header ∨ c.header.parentHash = U.genesis.hash P) ∧
      ∀ d ∈ blocks.getLast?, c.header.parentHash = d.hash P := by
  obtain ⟨⟨h, hpend⟩, hhead, hheight⟩ := head_of_commits hs hon hc
  have hg := hs.grounded hpend
  have hrooted : s.getPending c.header.parentHash = none → c.header = U.genesis.header ∨
      ∃ d ∈ blocks.getLast?, d.header.height + 1 = c.header.height := by
    intro hnone
    rcases hs.rooted hpend with hgen | ⟨y, hy⟩ | hd
    · exact .inl hgen
    · exfalso
      rcases HotStuffState.getPending_of_insertPending hy with ⟨-, rfl⟩ | hy'
      · have hh := (hg.parent (hs.parent hpend hy)).2
        have hh' := hon.height_eq
        omega
      · rw [hnone] at hy'
        cases hy'
    · exact .inr hd
  constructor
  · rintro rfl
    rcases hnext c hc with hgen | hpar | hnone
    · exact .inl hgen
    · exact .inr hpar
    · rcases hrooted hnone with hgen | ⟨d, hd, -⟩
      · exact .inl hgen
      · simp at hd
  · intro d hd
    have habove := hs.above hpend d hd
    obtain ⟨hgd, hheadd⟩ := hs.last d hd
    have hgen : c.header ≠ U.genesis.header := by
      intro he
      have h0 : c.header.height = 0 := by
        rw [he]
        rfl
      omega
    rcases hnext c hc with he | hpar | hnone
    · exact absurd he hgen
    · have hp : U.Parent c.header U.genesis.header := ⟨hg.mem, U.genesis_mem, hpar⟩
      have hh := (hg.parent hp).2
      have hz : U.genesis.header.height = 0 := rfl
      have hdg : d.header = U.genesis.header := hgd.eq_genesis_of_height (by omega)
      rw [hpar, Block.hash, Block.hash, hdg]
    · rcases hrooted hnone with he | ⟨d', hd', hh⟩
      · exact absurd he hgen
      · obtain rfl := Option.mem_unique hd hd'
        rcases hfork c.header d.header hhead hheadd with he | he
        · rcases Relation.ReflTransGen.cases_head he with heq | ⟨y, hy, hyd⟩
          · rw [heq] at hh
            omega
          · obtain ⟨hgy, hhy⟩ := hg.parent hy
            rw [hy.hash_eq, hgy.eq_of_extends hyd (by omega)]
            rfl
        · have hle := hgd.height_le he
          omega

theorem InOrder.concat {c : Block} (h : InOrder U blocks)
    (hfirst : blocks = [] → c.header = U.genesis.header ∨ c.header.parentHash = U.genesis.hash P)
    (hnext : ∀ d ∈ blocks.getLast?, c.header.parentHash = d.hash P)
    (hheight : ∀ d ∈ blocks.getLast?, d.header.height < c.header.height) :
    InOrder U (blocks ++ [c]) := by
  constructor
  · intro b hb
    cases blocks with
    | nil =>
      obtain rfl : c = b := by simpa using hb
      exact hfirst rfl
    | cons a l => exact h.first b (by simpa using hb)
  · refine List.isChain_append.mpr ⟨h.next, .singleton c, fun d hd b hb => ?_⟩
    obtain rfl : c = b := by simpa using hb
    exact hnext d hd
  · refine List.isChain_append.mpr ⟨h.heights, .singleton c, fun d hd b hb => ?_⟩
    obtain rfl : c = b := by simpa using hb
    exact hheight d hd

/-- A step that commits nothing leaves all pending blocks in place. -/
theorem StateOk.accept_of_commits_eq_none (hs : StateOk U blocks (s.insertPending P p.block))
    (hc : s.commits P p = none) : StateOk U blocks (s.acceptProposal P p).1 := by
  have hget : ∀ h b, (s.acceptProposal P p).1.getPending h = some b ↔
      (s.insertPending P p.block).getPending h = some b := by
    intro h b
    rw [HotStuffState.acceptProposal_getPending, hc]
    simp
  constructor
  · exact fun hb => hs.keyed ((hget _ _).mp hb)
  · exact fun hb => hs.grounded ((hget _ _).mp hb)
  · intro h b hb
    rcases hs.rooted ((hget _ _).mp hb) with hg | ⟨y, hy⟩ | hd
    · exact .inl hg
    · exact .inr (.inl ⟨y, (hget _ _).mpr hy⟩)
    · exact .inr (.inr hd)
  · exact fun hb => hs.above ((hget _ _).mp hb)
  · exact hs.last
  · exact hs.inOrder

theorem StateOk.accept_of_commits_eq_some (hs : StateOk U blocks (s.insertPending P p.block))
    (hon : U.ProposedOn p q) (hfork : NoConflict U) (hnext : AcceptCall.CommitsNext U (s, p))
    {c : Block} (hc : s.commits P p = some c) :
    StateOk U (blocks ++ [c]) (s.acceptProposal P p).1 := by
  obtain ⟨⟨k, hpend⟩, hhead, -⟩ := head_of_commits hs hon hc
  obtain ⟨hfirst, hlast⟩ := follows_last hs hon hfork hnext hc
  have hget : ∀ h b, (s.acceptProposal P p).1.getPending h = some b ↔
      (s.insertPending P p.block).getPending h = some b ∧ c.header.height < b.header.height := by
    intro h b
    rw [HotStuffState.acceptProposal_getPending, hc]
    simp
  have hend : ∀ d ∈ (blocks ++ [c]).getLast?, d = c := by
    intro d hd
    simpa [eq_comm] using hd
  constructor
  · exact fun hb => hs.keyed ((hget _ _).mp hb).1
  · exact fun hb => hs.grounded ((hget _ _).mp hb).1
  · intro h b hb
    obtain ⟨hb₁, hlt⟩ := (hget _ _).mp hb
    rcases hs.rooted hb₁ with hg | ⟨y, hy⟩ | ⟨d, hd, hh⟩
    · exact .inl hg
    · have hh := ((hs.grounded hb₁).parent (hs.parent hb₁ hy)).2
      by_cases hle : c.header.height < y.header.height
      · exact .inr (.inl ⟨y, (hget _ _).mpr ⟨hy, hle⟩⟩)
      · exact .inr (.inr ⟨c, by simp, by omega⟩)
    · have habove := hs.above hpend d hd
      omega
  · intro h b hb d hd
    rw [hend d hd]
    exact ((hget _ _).mp hb).2
  · intro d hd
    rw [hend d hd]
    exact ⟨hs.grounded hpend, hhead⟩
  · exact InOrder.concat hs.inOrder hfirst hlast fun d hd => hs.above hpend d hd

theorem StateOk.accept (hs : StateOk U blocks s) (hon : U.ProposedOn p q)
    (hp : s.pendingBlocks.containsKey p.block.header.parentHash = true) (hfork : NoConflict U)
    (hnext : AcceptCall.CommitsNext U (s, p)) (hroom : s.HasRoomFor P p.block) :
    StateOk U (blocks ++ (s.commits P p).toList) (s.acceptProposal P p).1 := by
  have hins := hs.insertPending hon hp hroom
  cases hc : s.commits P p with
  | none =>
    rw [Option.toList_none, List.append_nil]
    exact hins.accept_of_commits_eq_none hc
  | some c => exact hins.accept_of_commits_eq_some hon hfork hnext hc

end accept

variable (U)

structure ReplicaOk (r : Replica) : Prop where
  state : StateOk U r.commits r.core.state
  parked : ∀ {h signed}, r.core.parkedProposals.get? h = some signed →
    ∃ q ∈ U.headers, U.ProposedOn signed.payload q

variable {U}

theorem ReplicaOk.step {r : Replica} {i : Input} (h : ReplicaOk U r) (hfork : NoConflict U)
    (hprop : ProposesOnParent U i.event) (hcond : CommitsInOrder U r i) :
    ReplicaOk U (r.step P i) := by
  have hhandles := HotStuffCore.handles_step P i.order r.core i.event
  have hon : ∀ signed, i.event.proposal? = some signed ∨
      (∃ k, r.core.parkedProposals.get? k = some signed) →
        ∃ q ∈ U.headers, U.ProposedOn signed.payload q := by
    rintro signed (he | ⟨k, hk⟩)
    · exact hprop signed he
    · exact h.parked hk
  constructor
  · show StateOk U (r.commits ++
      (r.core.step P i.order i.event).2.filterMap Action.committed?) _
    rw [HotStuffCore.filterMap_committed_step]
    refine hhandles.linked.invariant _ (StateOk U) (fun hs hJ => hJ.same hs) ?_ h.state
    intro blocks call hcall hp hJ
    obtain ⟨signed, hpay, hfrom⟩ := HotStuffCore.mem_stepCalls hcall
    obtain ⟨q, -, hq⟩ := hon signed hfrom
    obtain ⟨hnext, hroom⟩ := hcond call hcall
    exact hJ.accept (hpay ▸ hq) hp hfork hnext hroom
  · intro k signed hk
    rcases hhandles.parked hk with he | hk'
    · exact hon signed (.inl he.symm)
    · exact hon signed (.inr hk')

end CommitOrder

section
variable {P : Primitives} (U : HeaderPool P) (id : NodeId) (vs : ValidatorSet)
  (limits : CacheLimits)

/-- Where no three-chains conflict and the commit rule never passes over a pending parent, the
committed blocks form one chain from genesis. -/
theorem inOrder_of_commitsInOrder (inputs : List Input)
    (hprop : ∀ i ∈ inputs, ProposesOnParent U i.event) (hfork : NoConflict U)
    (hcond : Along (Replica.step P) (CommitsInOrder U) (Replica.start P id vs U.genesis limits)
      inputs) :
    InOrder U (run (Replica.step P) (Replica.start P id vs U.genesis limits) inputs).commits := by
  have hstart : CommitOrder.ReplicaOk U (Replica.start P id vs U.genesis limits) := by
    refine ⟨CommitOrder.stateOk_new vs limits.pendingBlocksCapacity, fun {h signed} hs => ?_⟩
    have hn : Table.get? (∅ : Table BlockHash (Signed Proposal)) h = some signed := hs
    simp at hn
  have hok : CommitOrder.ReplicaOk U
      (run (Replica.step P) (Replica.start P id vs U.genesis limits) inputs) := by
    refine (hcond.and (Along.of_forall hprop)).invariant ?_ hstart
    intro r i hq hr
    exact hr.step hfork hq.2 hq.1
  exact hok.state.inOrder

end

namespace Sample

def input (p : Proposal) : Input := ⟨order, received p⟩

theorem noConflict_straightPool : NoConflict straightPool := by
  have hheads : ∀ x ∈ straightPool.headers, ThreeChainHead straightPool x →
      x = genesis.header ∨ x = d₁.block.header := by decide +kernel
  have hparent : straightPool.Parent d₁.block.header genesis.header := by decide +kernel
  have hmem : ∀ {x}, ThreeChainHead straightPool x → x ∈ straightPool.headers :=
    fun ⟨_, _, _, _, _, h, _⟩ => h.parent_mem
  intro x y hx hy
  rcases hheads x (hmem hx) hx with rfl | rfl <;> rcases hheads y (hmem hy) hy with rfl | rfl
  · exact .inl .refl
  · exact .inr (.single hparent)
  · exact .inl (.single hparent)
  · exact .inl .refl

def straightRun : Replica :=
  run (Replica.step primitives)
    (.start primitives 1 validators straightPool.genesis .unboundedForTests)
    ([d₁, d₂, d₃, d₄].map input)

theorem inOrder_straightRun :
    straightRun.commits = [genesis, d₁.block] ∧ InOrder straightPool straightRun.commits :=
  ⟨by decide +kernel,
    inOrder_of_commitsInOrder straightPool 1 validators .unboundedForTests _ (by decide +kernel)
      noConflict_straightPool (by decide +kernel)⟩

def e₁ : Proposal := propose genesis 1 []
def e₂ : Proposal := propose e₁.block 3 [0, 1, 3]
def e₃ : Proposal := propose e₂.block 4 [0, 1, 3]
def e₄ : Proposal := propose e₃.block 5 [0, 1, 3]
def e₅ : Proposal := propose e₄.block 6 [0, 1, 3]

/-- One chain that skips view 2. -/
def gapPool : HeaderPool primitives where
  headers := genesis.header :: [e₁, e₂, e₃, e₄, e₅].map fun p => p.block.header
  stateCommitment := 0
  historyCommitment := 0
  genesis_mem := List.mem_cons_self ..
  hash_injective := by decide
  hash_ne_zero := by decide

/-- After the skipped view the first block committed is `e₂`; its parent `e₁` never is. -/
theorem not_inOrder_gap :
    (∀ i ∈ [e₁, e₂, e₃, e₄, e₅].map input, ProposesOnParent gapPool i.event) ∧
    ¬ InOrder gapPool (run (Replica.step primitives)
      (.start primitives 1 validators gapPool.genesis .unboundedForTests)
      ([e₁, e₂, e₃, e₄, e₅].map input)).commits := by
  refine ⟨by decide +kernel, fun h => ?_⟩
  have hfirst := h.first e₂.block (by decide +kernel)
  exact absurd hfirst (by decide +kernel)

end Sample

end Boule
