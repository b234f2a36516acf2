import Boule.Node.Effects

/-! The blocks a node holds, pending, on disk or committed, in terms of those handed to it. -/
namespace Boule
open HotStuffState

section
variable {P : Primitives} {Q : Block → Prop}

/-- Every pending block is under its own hash and satisfies `Q`. -/
def PendingAll (P : Primitives) (Q : Block → Prop) (s : HotStuffState) : Prop :=
  ∀ h b, s.getPending h = some b → b.hash P = h ∧ Q b

theorem PendingAll.insertPending {s : HotStuffState} (hs : PendingAll P Q s) {b : Block}
    (hb : Q b) : PendingAll P Q (s.insertPending P b) := by
  intro h b' hget
  rcases getPending_of_insertPending hget with ⟨rfl, rfl⟩ | hget
  · exact ⟨rfl, hb⟩
  · exact hs h b' hget

theorem PendingAll.same {s s' : HotStuffState} (hs : PendingAll P Q s) (h : SameSafety s s') :
    PendingAll P Q s' := by
  intro hash b hget
  rw [getPending, h.pendingBlocks] at hget
  exact hs hash b hget

theorem PendingAll.acceptProposal {s : HotStuffState} (hs : PendingAll P Q s) {p : Proposal}
    (hb : Q p.block) : PendingAll P Q (s.acceptProposal P p).1 := by
  intro h b hget
  exact hs.insertPending hb h b ((acceptProposal_getPending P s p h b).mp hget).1

/-- A committed block was pending. -/
theorem PendingAll.commits {s : HotStuffState} (hs : PendingAll P Q s) {p : Proposal} {b : Block}
    (hp : Q p.block) (hc : s.commits P p = some b) : Q b := by
  obtain ⟨b2, b3, h3⟩ := threeChain_of_threeChainCommit hc
  exact (hs.insertPending hp _ b h3.get_b1).2

theorem PendingAll.step {order : IterOrder} {c : HotStuffCore} {event : Event}
    (hc : PendingAll P Q c.state)
    (hb : ∀ call ∈ c.stepCalls P order event, Q call.2.block) :
    PendingAll P Q (c.step P order event).1.state ∧
      ∀ b, .commit b ∈ (c.step P order event).2 → Q b := by
  have haccept : ∀ {log : List Block} (call : AcceptCall), call ∈ c.stepCalls P order event →
      call.1.pendingBlocks.containsKey call.2.block.header.parentHash = true →
      PendingAll P Q call.1 ∧ (∀ b ∈ log, Q b) →
      PendingAll P Q (call.next P) ∧
        ∀ b ∈ log ++ (call.1.commits P call.2).toList, Q b := by
    intro log call hcall _ h
    refine ⟨h.1.acceptProposal (hb call hcall), fun b hmem => ?_⟩
    rcases List.mem_append.mp hmem with hmem | hmem
    · exact h.2 b hmem
    · exact h.1.commits (hb call hcall) (Option.mem_toList.mp hmem)
  have hstart : PendingAll P Q c.state ∧ ∀ b ∈ ([] : List Block), Q b :=
    ⟨hc, fun b hm => absurd hm List.not_mem_nil⟩
  have hinv := Linked.invariant (fun call : AcceptCall => (call.1.commits P call.2).toList)
    (fun log s => PendingAll P Q s ∧ ∀ b ∈ log, Q b) (fun hsame h => ⟨h.1.same hsame, h.2⟩)
    haccept (c.handles_step P order event).linked hstart
  refine ⟨hinv.1, fun b hmem => hinv.2 b ?_⟩
  rw [List.nil_append, ← HotStuffCore.filterMap_committed_step P order c event]
  exact List.mem_filterMap.mpr ⟨.commit b, hmem, rfl⟩

theorem not_commit_of_quiet {actions : List Action} {b : Block}
    (h : actions.filter Action.isSafety = []) : .commit b ∉ actions := by
  intro hb
  have hmem : Action.commit b ∈ actions.filter Action.isSafety := List.mem_filter.mpr ⟨hb, rfl⟩
  rw [h] at hmem
  exact List.not_mem_nil hmem

theorem PendingAll.recover {cfg : NodeConfig} {storage : Storage} {n : ConsensusNode}
    (hg : Q (cfg.genesis P)) (hst : ∀ h b, storage.blocks.get? h = some b → Q b)
    (hr : ConsensusNode.recover P cfg storage = some n) : PendingAll P Q n.core.state := by
  have hrec : PendingAll P Q (recoverState P storage cfg.validatorSet (cfg.genesis P)) := by
    apply recoverState_invariant
    · intro s b h hb hs
      exact hs.insertPending (hst h b hb)
    · intro h b hget
      have hget' : Table.get? (AList.insert ((cfg.genesis P).hash P) (cfg.genesis P) ∅) h =
        some b := hget
      rw [Table.get?_insert, Table.get?_empty] at hget'
      split_ifs at hget' with he
      obtain rfl := Option.some.inj hget'
      exact ⟨he.symm, hg⟩
  exact PendingAll.same (s := (recoverState P storage cfg.validatorSet
    (cfg.genesis P)).setPendingBlocksLimit cfg.limits.pendingBlocksCapacity) hrec
    (ConsensusNode.recover_core hr)

theorem PendingAll.insertPendingBlocks {n : ConsensusNode} (hn : PendingAll P Q n.core.state)
    {blocks : List Block} (hb : ∀ b ∈ blocks, Q b) :
    PendingAll P Q (n.insertPendingBlocks P blocks).core.state := by
  show PendingAll P Q (blocks.foldl (HotStuffCore.insertPendingBlock P) n.core).state
  generalize n.core = c at hn
  induction blocks generalizing c with
  | nil => exact hn
  | cons b bs ih =>
    refine ih (fun b' hb' => hb b' (List.mem_cons_of_mem _ hb')) _ ?_
    exact hn.insertPending (hb b (List.mem_cons_self ..))

theorem PendingAll.restore {n : ConsensusNode} (hn : PendingAll P Q n.core.state)
    {storage : Storage} {manifest : SnapshotManifest} (hb : Q manifest.block) :
    PendingAll P Q (n.restore P storage manifest).2.1.core.state := by
  refine PendingAll.same ?_ (n.restoreFrame_restore P storage manifest).core
  exact hn.insertPending hb

end

namespace ConsensusNode

/-- The blocks that a dispatch puts into the pending blocks before the core steps. -/
def inserts (P : Primitives) (n : ConsensusNode) : Dispatch → List Block
  | .receiveBlock requestedHash (some block) _ =>
    if block.hash P ≠ requestedHash then []
    else if !n.core.blockSyncInflight.containsKey requestedHash then []
    else [block]
  | .receiveBlockRange fromHeight toHeight blocks _ =>
    if !n.blockSyncRangeInflight.containsKey (fromHeight, toHeight) then []
    else takenFromRange fromHeight toHeight none blocks
  | _ => []

theorem applyDispatch_core (P : Primitives) (n : ConsensusNode) (validated : Bool)
    (d : Dispatch) :
    (n.applyDispatch P validated d).1.core = (n.insertPendingBlocks P (n.inserts P d)).core := by
  cases d with
  | receiveBlock requestedHash block sender =>
    cases block with
    | none => rfl
    | some block =>
      simp only [applyDispatch, inserts]
      split_ifs <;> rfl
  | receiveBlockRange fromHeight toHeight blocks sender =>
    simp only [applyDispatch, inserts]
    split_ifs <;> rfl
  | _ => rfl

end ConsensusNode

section
variable {P : Primitives} {V : Verifier} {R : ReconfigPrimitives} {cfg : NodeConfig}
  {Q : Block → Prop}

/-- Every block that a machine holds satisfies `Q`, and it interprets what was emitted. -/
structure BlocksAll (P : Primitives) (Q : Block → Prop) (m : Machine) : Prop where
  stored : ∀ h b, m.storage.blocks.get? h = some b → Q b
  emitted : ∀ b, .commit b ∈ m.emitted → Q b
  pending : ∀ p ∈ m.process, PendingAll P Q p.node.core.state
  frames : ∀ p ∈ m.process, ∀ f ∈ p.frames, ∀ a ∈ f.rest, a ∈ m.emitted

/-- The blocks that a fed node accepts satisfy `Q`. -/
def AcceptsAll (P : Primitives) (Q : Block → Prop) (order : IterOrder)
    (fed : ConsensusNode × Option Event) : Prop :=
  ∀ event ∈ fed.2, ∀ call ∈ fed.1.core.stepCalls P order event, Q call.2.block

/-- Every block that the input puts into the pending blocks satisfies `Q`: a block from block
sync, the block of an accepted proposal, the block of a snapshot. -/
def InsertsAll (P : Primitives) (Q : Block → Prop) (m : Machine) (input : NodeInput) : Prop :=
  ∀ p ∈ m.process,
    match input with
    | .dispatch order validated d =>
      (∀ b ∈ p.node.inserts P d, Q b) ∧
        AcceptsAll P Q order (p.node.applyDispatch P validated d)
    | .restore order restored manifest => restored = true →
      Q manifest.block ∧ AcceptsAll P Q order (p.node.restore P m.storage manifest).2
    | _ => True

instance (order : IterOrder) (fed : ConsensusNode × Option Event) [DecidablePred Q] :
    Decidable (AcceptsAll P Q order fed) :=
  inferInstanceAs (Decidable (∀ event ∈ fed.2, _))

instance (m : Machine) [DecidablePred Q] : DecidablePred (InsertsAll P Q m)
  | .dispatch .. => inferInstanceAs (Decidable (∀ p ∈ m.process, (∀ b ∈ _, Q b) ∧ _))
  | .restore .. => inferInstanceAs (Decidable (∀ p ∈ m.process, _ → Q _ ∧ _))
  | .boot | .crash | .becomeLeader _ | .blockSyncRetryTick | .blockRangeRequest _ _
  | .blockRangeRetry _ | .interpret _ | .releaseStashed =>
    inferInstanceAs (Decidable (∀ p ∈ m.process, True))

theorem insertsAll_true (P : Primitives) (m : Machine) (input : NodeInput) :
    InsertsAll P (fun _ => True) m input := by
  intro p _
  cases input with
  | dispatch order validated d => exact ⟨fun _ _ => trivial, fun _ _ _ _ => trivial⟩
  | restore order restored manifest => exact fun _ => ⟨trivial, fun _ _ _ _ => trivial⟩
  | _ => trivial

namespace BlocksAll
variable {m m' : Machine} {n n' : ConsensusNode} {frames frames' : List Frame}

theorem start : BlocksAll P Q .start where
  stored := fun h b hget => absurd hget (by simp [Machine.start, Storage.empty])
  emitted := fun b hm => absurd hm List.not_mem_nil
  pending := fun p hp => absurd hp (by simp [Machine.start])
  frames := fun p hp => absurd hp (by simp [Machine.start])

theorem down (h : BlocksAll P Q m) : BlocksAll P Q { m with process := none } where
  stored := h.stored
  emitted := h.emitted
  pending := fun p hp => absurd hp (by simp)
  frames := fun p hp => absurd hp (by simp)

/-- A machine that has emitted nothing new. -/
theorem of_process (h : BlocksAll P Q m) (he : m'.emitted = m.emitted)
    (hp : m'.process = some ⟨n', frames'⟩)
    (hst : ∀ hash b, m'.storage.blocks.get? hash = some b → Q b)
    (hn : PendingAll P Q n'.core.state)
    (hf : ∀ f ∈ frames', ∀ a ∈ f.rest, a ∈ m.emitted) : BlocksAll P Q m' := by
  constructor
  · exact hst
  · rw [he]
    exact h.emitted
  · intro p hp'
    obtain rfl := Option.some.inj (hp.symm.trans hp')
    exact hn
  · intro p hp'
    obtain rfl := Option.some.inj (hp.symm.trans hp')
    rw [he]
    exact hf

theorem push (h : BlocksAll P Q m) (hp : m.process = some ⟨n, frames⟩)
    (hn : PendingAll P Q n'.core.state) {actions : List Action}
    (ha : ∀ b, .commit b ∈ actions → Q b) : BlocksAll P Q (m.push n' frames actions) := by
  constructor
  · exact h.stored
  · intro b hb
    rcases List.mem_append.mp hb with hb | hb
    · exact h.emitted b hb
    · exact ha b hb
  · intro p hp'
    obtain rfl := Option.some.inj hp'
    exact hn
  · intro p hp'
    obtain rfl := Option.some.inj hp'
    intro f hf a hfa
    rcases List.mem_cons.mp hf with rfl | hf
    · exact List.mem_append_right _ hfa
    · exact List.mem_append_left _ (h.frames _ hp f hf a hfa)

theorem feed (h : BlocksAll P Q m) (hp : m.process = some ⟨n, frames⟩) {order : IterOrder}
    {fed : ConsensusNode × Option Event} {storage : Storage}
    (hst : ∀ hash b, storage.blocks.get? hash = some b → Q b)
    (hn : PendingAll P Q fed.1.core.state) (ha : AcceptsAll P Q order fed) :
    BlocksAll P Q (Machine.feed P { m with storage := storage } frames order fed) := by
  have hm : BlocksAll P Q { m with storage := storage } :=
    h.of_process rfl hp hst (h.pending _ hp) (h.frames _ hp)
  unfold Machine.feed
  cases he : fed.2 with
  | none => exact h.of_process rfl rfl hst hn (h.frames _ hp)
  | some event =>
    obtain ⟨hs, hc⟩ := hn.step (ha event he)
    exact hm.push hp hs hc

theorem boot (h : BlocksAll P Q m) (hg : Q (cfg.genesis P)) : BlocksAll P Q (m.boot P cfg) := by
  unfold Machine.boot
  cases hr : ConsensusNode.recover P cfg m.storage with
  | none => exact h.down
  | some n =>
    simp only
    split_ifs
    · exact h.of_process rfl rfl h.stored (.recover hg h.stored hr)
        fun f hf => absurd hf List.not_mem_nil
    · exact h.down

theorem flush (h : BlocksAll P Q m) (hp : m.process = some ⟨n, frames⟩)
    (updates : List StateUpdate) : ∀ hash b,
      (m.storage.persistUpdates n.core.state.pendingBlocks updates).blocks.get? hash = some b →
        Q b := by
  intro hash b hget
  rcases Storage.get?_persistUpdates hget with hb | hb
  · exact (h.pending _ hp hash b hb).2
  · exact h.stored hash b hb

theorem handleAction (h : BlocksAll P Q m) {action : Action} {rest : List Action}
    (answers : Answers) (hp : m.process = some ⟨n, ⟨[], action :: rest⟩ :: frames⟩) :
    BlocksAll P Q (m.handleAction P V R cfg n (⟨[], rest⟩ :: frames) answers action) := by
  have hn := h.pending _ hp
  have hold := h.frames _ hp
  have hf : ∀ f ∈ (⟨[], rest⟩ :: frames : List Frame), ∀ a ∈ f.rest, a ∈ m.emitted := by
    intro f hf a ha
    rcases List.mem_cons.mp hf with rfl | hf
    · exact hold _ (List.mem_cons_self ..) a (List.mem_cons_of_mem _ ha)
    · exact hold f (List.mem_cons_of_mem _ hf) a ha
  have hkeep : BlocksAll P Q (m.keep n (⟨[], rest⟩ :: frames)) :=
    h.of_process rfl rfl h.stored hn hf
  cases action with
  | broadcast msg =>
    cases msg <;> simp only [Machine.handleAction] <;> split_ifs <;>
      exact h.of_process rfl rfl h.stored hn hf
  | commit block =>
    have hb : Q block := h.emitted block (hold _ (List.mem_cons_self ..) _ (List.mem_cons_self ..))
    simp only [Machine.handleAction]
    cases hc : n.applyCommit P R cfg m.storage block with
    | none => exact h.down
    | some r =>
      have hr := ConsensusNode.commitFrame_applyCommit hc
      refine h.of_process rfl rfl (fun hash b hget => ?_) (hn.same hr.core) hf
      rcases hr.blocks hget with rfl | hget
      · exact hb
      · exact h.stored hash b hget
  | buildProposal view highQc parent =>
    simp only [Machine.handleAction]
    cases (if n.isFull = true then none else answers.built) with
    | none => exact hkeep
    | some block =>
      have hquiet : ∀ b, .commit b ∉ (n.core.proposalBuilt view block highQc).2 := by
        simp [HotStuffCore.proposalBuilt]
      have hpush : ∀ n' : ConsensusNode, PendingAll P Q n'.core.state →
          BlocksAll P Q (Machine.push (m.keep n (⟨[], rest⟩ :: frames)) n' (⟨[], rest⟩ :: frames)
            (n.core.proposalBuilt view block highQc).2) :=
        fun n' hn' => hkeep.push rfl hn' fun b hb => absurd hb (hquiet b)
      exact hpush { n with core := (n.core.proposalBuilt view block highQc).1 } hn
  | persist u => exact hkeep
  | requestBlock hash peer expectedHeight reason => exact hkeep
  | equivocationEvidence voter view a b => exact hkeep
  | proposalEquivocationEvidence leader view a b => exact hkeep

theorem interpret (h : BlocksAll P Q m) (answers : Answers)
    (hp : m.process = some ⟨n, frames⟩) :
    BlocksAll P Q (m.interpret P V R cfg n frames answers) := by
  have hn := h.pending _ hp
  have hold := h.frames _ hp
  cases frames with
  | nil => exact h
  | cons frame frames =>
    obtain ⟨buf, rest⟩ := frame
    have htail : ∀ f ∈ frames, ∀ a ∈ f.rest, a ∈ m.emitted :=
      fun f hf => hold f (List.mem_cons_of_mem _ hf)
    have hcons : ∀ rest' buf', (∀ a ∈ rest', a ∈ rest) →
        ∀ f ∈ (⟨buf', rest'⟩ :: frames : List Frame), ∀ a ∈ f.rest, a ∈ m.emitted := by
      intro rest' buf' hsub f hf a ha
      rcases List.mem_cons.mp hf with rfl | hf
      · exact hold _ (List.mem_cons_self ..) a (hsub a ha)
      · exact htail f hf a ha
    cases rest with
    | nil => exact h.of_process rfl rfl (h.flush hp buf) hn htail
    | cons action rest =>
      have hother : BlocksAll P Q
          (if buf.isEmpty then m.handleAction P V R cfg n (⟨[], rest⟩ :: frames) answers action
          else Machine.keep
            { m with storage := m.storage.persistUpdates n.core.state.pendingBlocks buf } n
            (⟨[], action :: rest⟩ :: frames)) := by
        split_ifs with hb
        · rw [List.isEmpty_iff.mp hb] at hp
          exact h.handleAction answers hp
        · exact h.of_process rfl rfl (h.flush hp buf) hn (hcons _ [] fun a ha => ha)
      cases action with
      | persist u =>
        exact h.of_process rfl rfl h.stored hn
          (hcons rest _ fun a ha => List.mem_cons_of_mem _ ha)
      | _ => exact hother

/-- Only inserted blocks enter the machine. -/
theorem step (h : BlocksAll P Q m) (hg : Q (cfg.genesis P)) {input : NodeInput}
    (hi : InsertsAll P Q m input) : BlocksAll P Q (m.step P V R cfg input) := by
  unfold Machine.step
  cases hp : m.process with
  | none =>
    cases input with
    | boot => exact h.boot hg
    | crash => exact h.down
    | _ => exact h
  | some p =>
    obtain ⟨n, frames⟩ := p
    have hn := h.pending _ hp
    have hf := h.frames _ hp
    have hk := hi _ hp
    cases input with
    | boot => exact h
    | crash => exact h.down
    | dispatch order validated d =>
      refine h.feed hp h.stored ?_ hk.2
      rw [ConsensusNode.applyDispatch_core]
      exact hn.insertPendingBlocks hk.1
    | becomeLeader view =>
      simp only
      split_ifs
      · exact h
      · exact h.push hp hn fun b hb =>
          absurd hb (not_commit_of_quiet (n.core.filter_buildProposalAtView view))
    | blockSyncRetryTick =>
      obtain ⟨hc, hq⟩ := n.core.quiet_stepBlockSyncRetryTick
      have htick : PendingAll P Q n.core.stepBlockSyncRetryTick.1.state := by
        rw [hc.state]
        exact hn
      exact h.push hp htick fun b hb => absurd hb (not_commit_of_quiet hq)
    | blockRangeRequest proposer proposalHeight =>
      refine h.of_process rfl rfl h.stored ?_ hf
      rw [ConsensusNode.core_maybeEmitBlockRangeRequest]
      exact hn
    | blockRangeRetry due => exact h.of_process rfl rfl h.stored hn hf
    | restore order restored manifest =>
      simp only
      split_ifs with hr
      · obtain ⟨hb, ha⟩ := hk hr
        refine h.feed hp (fun hash b hget => ?_) (hn.restore hb) ha
        rcases (n.restoreFrame_restore P m.storage manifest).blocks hget with rfl | hget
        · exact hb
        · exact h.stored hash b hget
      · exact h
    | interpret answers => exact h.interpret answers hp
    | releaseStashed =>
      simp only [Machine.releaseStashed]
      cases n.stashedProposal with
      | none => exact h
      | some p => exact h.of_process rfl rfl h.stored hn hf

/-- A run into which only blocks with `Q` are inserted holds only such blocks. -/
theorem run {P : Primitives} {V : Verifier} {R : ReconfigPrimitives} {cfg : NodeConfig}
    {Q : Block → Prop} {inputs : List NodeInput} (hg : Q (cfg.genesis P))
    (h : Along (Machine.step P V R cfg) (InsertsAll P Q) .start inputs) :
    BlocksAll P Q (Boule.run (Machine.step P V R cfg) .start inputs) :=
  h.invariant (fun _ _ hi hm => hm.step hg hi) .start

end BlocksAll

end

end Boule
