import Boule.Node.Blocks

/-! Who has signed the proposals that a node votes for: delivered ones, and parked ones that are
taken up again later. -/
namespace Boule

namespace HotStuffCore

/-! ### The signed proposals that a step takes up -/

def proposalHandled (c : HotStuffCore) (signed : Signed Proposal) :
    List (HotStuffState × Signed Proposal) :=
  if c.state.pendingBlocks.containsKey signed.payload.block.header.parentHash then
    [(c.state, signed)]
  else []

def resumeHandled (P : Primitives) :
    HotStuffCore → List BlockHash → List (HotStuffState × Signed Proposal)
  | _, [] => []
  | c, h :: hs =>
    ((c.parkedProposals.get? h).elim [] c.proposalHandled) ++
      resumeHandled P (c.resumeParked P h).1 hs

/-- The calls of `acceptProposal`, with the envelopes the proposals came in. -/
def stepHandled (P : Primitives) (order : IterOrder) (c : HotStuffCore) :
    Event → List (HotStuffState × Signed Proposal)
  | .proposalReceived verified => c.proposalHandled verified.value
  | .pacemakerAdvance v =>
    resumeHandled P (c.enterView v) (order.apply (c.enterView v).readyParked)
  | .voteReceived _ => []
  | .newViewReceived _ => []

theorem mem_proposalHandled {c : HotStuffCore} {signed : Signed Proposal}
    {e : HotStuffState × Signed Proposal} (h : e ∈ c.proposalHandled signed) : e.2 = signed := by
  unfold proposalHandled at h
  split_ifs at h
  · rw [List.mem_singleton.mp h]
  · simp at h

theorem mem_resumeHandled {P : Primitives} {c : HotStuffCore} {hs : List BlockHash}
    {e : HotStuffState × Signed Proposal} (h : e ∈ resumeHandled P c hs) :
    ∃ k, c.parkedProposals.get? k = some e.2 := by
  induction hs generalizing c with
  | nil => simp [resumeHandled] at h
  | cons k hs ih =>
    rw [resumeHandled, List.mem_append] at h
    rcases h with h | h
    · cases hk : c.parkedProposals.get? k with
      | none => simp [hk] at h
      | some signed =>
        rw [hk] at h
        exact ⟨k, by rw [mem_proposalHandled h, hk]⟩
    · obtain ⟨k', hk'⟩ := ih h
      rcases (handles_resumeParked P c k).parked hk' with he | ⟨k'', hk''⟩
      · cases he
      · exact ⟨k'', hk''⟩

/-- A proposal that is taken up was delivered by the event or was parked. -/
theorem mem_stepHandled {P : Primitives} {order : IterOrder} {c : HotStuffCore} {event : Event}
    {e : HotStuffState × Signed Proposal} (h : e ∈ c.stepHandled P order event) :
    event.proposal? = some e.2 ∨ ∃ k, c.parkedProposals.get? k = some e.2 := by
  cases event with
  | proposalReceived verified => exact .inl (congrArg some (mem_proposalHandled h).symm)
  | pacemakerAdvance v => exact .inr (mem_resumeHandled (c := c.enterView v) h)
  | voteReceived variant => simp [stepHandled] at h
  | newViewReceived verified => simp [stepHandled] at h

/-! ### Parked proposals -/

/-- Every parked proposal satisfies `Q`. -/
def ParkedAll (Q : Signed Proposal → Prop) (c : HotStuffCore) : Prop :=
  ∀ h signed, c.parkedProposals.get? h = some signed → Q signed

end HotStuffCore

theorem parkedProposals_replayBoundaries (c : HotStuffCore)
    (boundaries : List (ℕ × ValidatorSet)) :
    (replayBoundaries c boundaries).1.parkedProposals = c.parkedProposals := by
  induction boundaries generalizing c with
  | nil => rfl
  | cons b bs ih =>
    rw [replayBoundaries]
    split_ifs
    · exact ih c
    · cases hc : c.insertValidatorBoundary b.1 b.2 with
      | error e => rfl
      | ok c' => exact (ih c').trans (parkedProposals_insertValidatorBoundary hc)

namespace ConsensusNode

theorem parkedProposals_applyReconfig (n : ConsensusNode) (cmd : ReconfigCommand)
    (newSet : ValidatorSet) :
    (n.applyReconfig cmd newSet).1.core.parkedProposals = n.core.parkedProposals := by
  unfold applyReconfig
  split
  · rfl
  · split
    · rfl
    · exact parkedProposals_insertValidatorBoundary ‹_›

theorem parkedProposals_applyReconfigs (R : ReconfigPrimitives) (delay : ℕ) (chainId : ChainId)
    (n : ConsensusNode) (block : Block) :
    (n.applyReconfigs R delay chainId block).1.core.parkedProposals = n.core.parkedProposals := by
  unfold applyReconfigs
  generalize hp : (n, false) = progress
  have hn : progress.1.core.parkedProposals = n.core.parkedProposals := by rw [← hp]
  clear hp
  induction block.commands generalizing progress with
  | nil => exact hn
  | cons bytes commands ih =>
    apply ih
    unfold applyReconfigPayload
    split
    · exact hn
    · exact (parkedProposals_applyReconfig _ _ _).trans hn

theorem parkedProposals_applyCommit {P : Primitives} {R : ReconfigPrimitives} {cfg : NodeConfig}
    {storage storage' : Storage} {n n' : ConsensusNode} {block : Block}
    (h : n.applyCommit P R cfg storage block = some (storage', n')) :
    n'.core.parkedProposals = n.core.parkedProposals := by
  obtain ⟨-, rfl⟩ := Prod.mk.inj (applyCommit_eq_some h)
  rw [← n.advanced_core block.header.height block.header.view]
  exact parkedProposals_applyReconfigs R cfg.minVEffDelay (cfg.chainId P) _ block

theorem parkedProposals_restore (P : Primitives) (storage : Storage) (n : ConsensusNode)
    (manifest : SnapshotManifest) :
    (n.restore P storage manifest).2.1.core.parkedProposals = n.core.parkedProposals := by
  have hcore : ((n.adopt P manifest).raiseCommitted manifest).core.parkedProposals =
      n.core.parkedProposals := by
    rw [core_raiseCommitted_adopt]
    rfl
  rw [(n.restore_installs P storage manifest).2, ← hcore]
  unfold installHistories
  simp only
  split
  · rfl
  · split_ifs
    · exact parkedProposals_replayBoundaries _ _
    · exact parkedProposals_replayBoundaries _ _

theorem parkedProposals_insertPendingBlocks (P : Primitives) (n : ConsensusNode)
    (blocks : List Block) :
    (n.insertPendingBlocks P blocks).core.parkedProposals = n.core.parkedProposals := by
  show (blocks.foldl (HotStuffCore.insertPendingBlock P) n.core).parkedProposals = _
  generalize n.core = c
  induction blocks generalizing c with
  | nil => rfl
  | cons b bs ih =>
    rw [List.foldl_cons, ih]
    rfl

end ConsensusNode

/-! ### Leaders -/

/-- The signer is the validator that the schedule assigns to the view of the block. -/
def ConsensusNode.SignedByLeader (n : ConsensusNode) (signed : Signed Proposal) : Prop :=
  ∃ id ∈ n.validatorKeyHistory.validatorFor signed.signer,
    scheduledLeader n.validatorHistory signed.payload.block.header.view = some id

instance (n : ConsensusNode) : DecidablePred n.SignedByLeader :=
  fun _ => inferInstanceAs (Decidable (∃ id ∈ _, _))

theorem ConsensusNode.SignedByLeader.congr {n n' : ConsensusNode} {signed : Signed Proposal}
    (h : n.SignedByLeader signed) (hkey : n'.validatorKeyHistory = n.validatorKeyHistory)
    (hset : n'.validatorHistory = n.validatorHistory) : n'.SignedByLeader signed := by
  unfold SignedByLeader
  rw [hkey, hset]
  exact h

/-- The node that an input leaves, and the event it hands to the core. -/
def NodeInput.feeds (P : Primitives) (m : Machine) (n : ConsensusNode) :
    NodeInput → Option (IterOrder × ConsensusNode × Option Event)
  | .dispatch order validated d => some (order, n.applyDispatch P validated d)
  | .restore order true manifest => some (order, (n.restore P m.storage manifest).2)
  | _ => none

section
variable (P : Primitives) (V : Verifier) (R : ReconfigPrimitives) (cfg : NodeConfig)

/-- A proposal that is handed to the core is signed by the leader of its view, and the step leaves
the leaders of parked proposals as they are. -/
def FromLeaders (m : Machine) (input : NodeInput) : Prop :=
  ∀ p ∈ m.process,
    (∀ f ∈ input.feeds P m p.node, ∀ event ∈ f.2.2, ∀ signed ∈ event.proposal?,
      f.2.1.SignedByLeader signed) ∧
    ∀ p' ∈ (m.step P V R cfg input).process, ∀ e ∈ p.node.core.parkedProposals.toList,
      p.node.SignedByLeader e.2 → p'.node.SignedByLeader e.2

/-- Every proposal that the step takes up and votes for is signed by the leader of its view. -/
def VotesForLeaders (m : Machine) (input : NodeInput) : Prop :=
  ∀ p ∈ m.process, ∀ f ∈ input.feeds P m p.node, ∀ event ∈ f.2.2,
    ∀ e ∈ f.2.1.core.stepHandled P f.1 event,
      .broadcast (.vote ⟨e.2.payload.block.header.view, e.2.payload.block.hash P⟩) ∈
        (e.1.acceptProposal P e.2.payload).2 →
      f.2.1.SignedByLeader e.2

instance (m : Machine) (input : NodeInput) : Decidable (FromLeaders P V R cfg m input) :=
  inferInstanceAs (Decidable (∀ p ∈ m.process, _ ∧ _))

end

section
variable {P : Primitives} {V : Verifier} {R : ReconfigPrimitives} {cfg : NodeConfig}
  {m : Machine} {p p' : Process} {input : NodeInput}

theorem parkedProposals_recover {storage : Storage} {n : ConsensusNode}
    (h : ConsensusNode.recover P cfg storage = some n) : n.core.parkedProposals = ∅ := by
  have hsame := parkedProposals_replayBoundaries (ConsensusNode.startingCore P cfg storage)
    n.validatorHistory.iter
  rw [(ConsensusNode.recovered_of_recover h).core] at hsame
  exact hsame

/-- The node after the core has taken the event. -/
def ConsensusNode.afterEvent (P : Primitives) (order : IterOrder)
    (fed : ConsensusNode × Option Event) : ConsensusNode :=
  match fed.2 with
  | none => fed.1
  | some event => { fed.1 with core := (fed.1.core.step P order event).1 }

theorem process_feed (m : Machine) (frames : List Frame) (order : IterOrder)
    (fed : ConsensusNode × Option Event) : ∃ frames', (m.feed P frames order fed).process =
      some ⟨ConsensusNode.afterEvent P order fed, frames'⟩ := by
  unfold Machine.feed ConsensusNode.afterEvent
  cases fed.2 with
  | none => exact ⟨_, rfl⟩
  | some event => exact ⟨_, rfl⟩

variable (V R cfg) in
/-- An input that feeds the core leaves the node after the event. -/
theorem process_step_of_feeds (hp : m.process = some p)
    {f : IterOrder × ConsensusNode × Option Event} (hf : input.feeds P m p.node = some f) :
    ∃ frames, (m.step P V R cfg input).process =
      some ⟨ConsensusNode.afterEvent P f.1 f.2, frames⟩ := by
  unfold Machine.step
  rw [hp]
  unfold NodeInput.feeds at hf
  cases input with
  | dispatch order validated d =>
    obtain rfl := Option.some.inj hf
    exact process_feed m p.frames order _
  | restore order restored manifest =>
    cases restored with
    | false => cases hf
    | true =>
      obtain rfl := Option.some.inj hf
      exact process_feed _ p.frames order _
  | _ => cases hf

theorem afterEvent_histories (order : IterOrder) (fed : ConsensusNode × Option Event) :
    (ConsensusNode.afterEvent P order fed).validatorKeyHistory = fed.1.validatorKeyHistory ∧
      (ConsensusNode.afterEvent P order fed).validatorHistory = fed.1.validatorHistory := by
  unfold ConsensusNode.afterEvent
  split <;> exact ⟨rfl, rfl⟩

theorem parkedProposals_feeds {n : ConsensusNode}
    {f : IterOrder × ConsensusNode × Option Event} (hf : input.feeds P m n = some f) :
    f.2.1.core.parkedProposals = n.core.parkedProposals := by
  unfold NodeInput.feeds at hf
  cases input with
  | dispatch order validated d =>
    obtain rfl := Option.some.inj hf
    rw [ConsensusNode.applyDispatch_core]
    exact ConsensusNode.parkedProposals_insertPendingBlocks P n _
  | restore order restored manifest =>
    cases restored with
    | false => cases hf
    | true =>
      obtain rfl := Option.some.inj hf
      exact ConsensusNode.parkedProposals_restore P m.storage n manifest
  | _ => cases hf

theorem parkedProposals_interpret {n : ConsensusNode} {frames : List Frame} {answers : Answers}
    (hp : m.process = some ⟨n, frames⟩)
    (hp' : (m.interpret P V R cfg n frames answers).process = some p') :
    p'.node.core.parkedProposals = n.core.parkedProposals := by
  have hsame : ∀ {m' : Machine} {n' : ConsensusNode} {frames' : List Frame},
      m'.process = some ⟨n', frames'⟩ → n'.core.parkedProposals = n.core.parkedProposals →
      m'.process = some p' → p'.node.core.parkedProposals = n.core.parkedProposals := by
    intro m' n' frames' hm hn hm'
    obtain rfl := Option.some.inj (hm.symm.trans hm')
    exact hn
  have haction : ∀ (action : Action) (frames' : List Frame),
      (m.handleAction P V R cfg n frames' answers action).process = some p' →
      p'.node.core.parkedProposals = n.core.parkedProposals := by
    intro action frames' h
    cases action with
    | broadcast msg =>
      cases msg <;> simp only [Machine.handleAction] at h <;> split_ifs at h <;>
        · obtain rfl := Option.some.inj h
          rfl
    | commit block =>
      simp only [Machine.handleAction] at h
      cases hc : n.applyCommit P R cfg m.storage block with
      | none =>
        rw [hc] at h
        cases h
      | some r =>
        rw [hc] at h
        exact hsame rfl (ConsensusNode.parkedProposals_applyCommit hc) h
    | buildProposal view highQc parent =>
      simp only [Machine.handleAction] at h
      split at h
      · exact hsame rfl rfl h
      · obtain rfl := Option.some.inj h
        rfl
    | persist u => exact hsame rfl rfl h
    | requestBlock hash peer expectedHeight reason => exact hsame rfl rfl h
    | equivocationEvidence voter view a b => exact hsame rfl rfl h
    | proposalEquivocationEvidence leader view a b => exact hsame rfl rfl h
  cases frames with
  | nil => exact hsame hp rfl hp'
  | cons frame frames =>
    obtain ⟨buf, rest⟩ := frame
    cases rest with
    | nil => exact hsame rfl rfl hp'
    | cons action rest =>
      cases action with
      | persist u => exact hsame rfl rfl hp'
      | _ =>
        simp only [Machine.interpret] at hp'
        split_ifs at hp'
        · exact haction _ _ hp'
        · exact hsame rfl rfl hp'

/-- What is parked after a step was parked before or has just been delivered. -/
theorem parked_step (hp : m.process = some p)
    (hp' : (m.step P V R cfg input).process = some p') {hash : BlockHash}
    {signed : Signed Proposal}
    (h : p'.node.core.parkedProposals.get? hash = some signed) :
    (∃ hash', p.node.core.parkedProposals.get? hash' = some signed) ∨
      ∃ f ∈ input.feeds P m p.node, ∃ event ∈ f.2.2, signed ∈ event.proposal? := by
  cases hf : input.feeds P m p.node with
  | some f =>
    obtain ⟨frames, hstep⟩ := process_step_of_feeds V R cfg hp hf
    obtain rfl := Option.some.inj (hstep.symm.trans hp')
    simp only [ConsensusNode.afterEvent] at h
    cases he : f.2.2 with
    | none =>
      rw [he] at h
      exact .inl ⟨hash, parkedProposals_feeds hf ▸ h⟩
    | some event =>
      rw [he] at h
      rcases (f.2.1.core.handles_step P f.1 event).parked h with hs | ⟨hash', hs⟩
      · exact .inr ⟨f, rfl, event, he, hs.symm⟩
      · exact .inl ⟨hash', parkedProposals_feeds hf ▸ hs⟩
  | none =>
    left
    refine ⟨hash, ?_⟩
    have hsame : ∀ n : ConsensusNode, p'.node = n →
        (∀ {hash signed}, n.core.parkedProposals.get? hash = some signed →
          p.node.core.parkedProposals.get? hash = some signed) →
        p.node.core.parkedProposals.get? hash = some signed := by
      intro n hn hsub
      exact hsub (hn ▸ h)
    unfold Machine.step at hp'
    rw [hp] at hp'
    cases input with
    | boot =>
      obtain rfl := Option.some.inj (hp.symm.trans hp')
      exact h
    | crash => cases hp'
    | dispatch order validated d => cases hf
    | becomeLeader view =>
      simp only at hp'
      split_ifs at hp'
      · obtain rfl := Option.some.inj (hp.symm.trans hp')
        exact h
      · obtain rfl := Option.some.inj hp'
        exact h
    | blockSyncRetryTick =>
      obtain rfl := Option.some.inj hp'
      exact (p.node.core.quiet_stepBlockSyncRetryTick).1.parked h
    | blockRangeRequest proposer proposalHeight =>
      obtain rfl := Option.some.inj hp'
      simp only [ConsensusNode.core_maybeEmitBlockRangeRequest] at h
      exact h
    | blockRangeRetry due =>
      obtain rfl := Option.some.inj hp'
      exact h
    | restore order restored manifest =>
      cases restored with
      | false =>
        obtain rfl := Option.some.inj (hp.symm.trans hp')
        exact h
      | true => cases hf
    | interpret answers =>
      rw [← parkedProposals_interpret hp hp']
      exact h
    | releaseStashed =>
      simp only [Machine.releaseStashed] at hp'
      split at hp'
      · obtain rfl := Option.some.inj (hp.symm.trans hp')
        exact h
      · obtain rfl := Option.some.inj hp'
        exact h

theorem process_step_of_none (hp : m.process = none)
    (hp' : (m.step P V R cfg input).process = some p') : p'.node.core.parkedProposals = ∅ := by
  unfold Machine.step at hp'
  rw [hp] at hp'
  cases input with
  | boot =>
    simp only [Machine.boot] at hp'
    cases hr : ConsensusNode.recover P cfg m.storage with
    | none =>
      rw [hr] at hp'
      cases hp'
    | some n =>
      rw [hr] at hp'
      simp only at hp'
      split_ifs at hp'
      obtain rfl := Option.some.inj hp'
      exact parkedProposals_recover hr
  | crash => cases hp'
  | _ =>
    rw [hp] at hp'
    cases hp'

/-- Parked proposals are signed by leaders. -/
def ParkedFromLeaders (m : Machine) : Prop :=
  ∀ p ∈ m.process, p.node.core.ParkedAll p.node.SignedByLeader

theorem ParkedFromLeaders.step (h : ParkedFromLeaders m)
    (hi : FromLeaders P V R cfg m input) :
    ParkedFromLeaders (m.step P V R cfg input) ∧ VotesForLeaders P m input := by
  constructor
  · intro p' hp' hash signed hs
    cases hp : m.process with
    | none =>
      rw [process_step_of_none hp hp', Table.get?_empty] at hs
      cases hs
    | some p =>
      obtain ⟨hdelivered, hkept⟩ := hi p hp
      rcases parked_step hp hp' hs with ⟨hash', hs'⟩ | ⟨f, hf, event, he, hs'⟩
      · exact hkept p' hp' (hash', signed) ((Table.mem_toList _ _ _).mpr hs')
          (h p hp hash' signed hs')
      · obtain ⟨frames, hstep⟩ := process_step_of_feeds V R cfg hp hf
        obtain rfl := Option.some.inj (hstep.symm.trans hp')
        obtain ⟨hkey, hset⟩ := afterEvent_histories (P := P) f.1 f.2
        exact (hdelivered f hf event he signed hs').congr hkey hset
  · intro p hp f hf event he e hmem _
    obtain ⟨hdelivered, hkept⟩ := hi p hp
    rcases HotStuffCore.mem_stepHandled hmem with hs | ⟨hash, hs⟩
    · exact hdelivered f hf event he e.2 hs
    · rw [parkedProposals_feeds hf] at hs
      obtain ⟨frames, hstep⟩ := process_step_of_feeds V R cfg hp hf
      have hnew := hkept _ hstep (hash, e.2) ((Table.mem_toList _ _ _).mpr hs)
        (h p hp hash e.2 hs)
      obtain ⟨hkey, hset⟩ := afterEvent_histories (P := P) f.1 f.2
      exact hnew.congr hkey.symm hset.symm

/-- In every run whose inputs meet the condition, whatever is voted for, at once or after it was
parked, is signed by the leader of its view. -/
theorem votes_from_leaders {inputs : List NodeInput}
    (h : Along (Machine.step P V R cfg) (FromLeaders P V R cfg) .start inputs) :
    Along (Machine.step P V R cfg) (VotesForLeaders P) .start inputs :=
  h.imp_of_invariant (I := ParkedFromLeaders) (fun _ _ hi (hm : ParkedFromLeaders _) => hm.step hi)
    fun p hp => absurd hp (by simp [Machine.start])

end

namespace Sample

/-- Validator 2 leads views 1 and 5. -/
def inTurn : Block := blockOn root 1 0 []

def nextTurn : Block := blockOn inTurn 5 0 []

/-- The later proposal comes first, is parked, and is taken up in its view. -/
def overtaken : List NodeInput :=
  [.boot, proposed nextTurn (certificate inTurn), proposed inTurn (genesisQc timed root validators),
    .dispatch order true (.pacemaker (.onQc 4))]

theorem parked_vote_for_leader :
    .broadcast (.vote ⟨5, nextTurn.hash timed⟩) ∈ (run stepNode .start overtaken).emitted ∧
      Along stepNode (VotesForLeaders timed) .start overtaken := by
  have hfrom : Along stepNode (FromLeaders timed verifier reconfigs config) .start overtaken := by
    decide +kernel
  exact ⟨by decide +kernel, votes_from_leaders hfrom⟩

/-- A block of view 2, which validator 3 leads. -/
def outOfTurn : Block := blockOn root 2 0 []

def outOfTurnSigned : Signed Proposal := signedOn outOfTurn (genesisQc timed root validators)

/-- Any member's proposal passes ingress and gets the node's vote. -/
theorem vote_out_of_turn : ∃ p ∈ (run stepNode .start [.boot]).process,
    ingressProposal verifier context outOfTurnSigned = .ok (proposalDispatches outOfTurnSigned) ∧
    .broadcast (.vote ⟨2, outOfTurn.hash timed⟩) ∈
      (p.node.core.step timed order (.proposalReceived ⟨outOfTurnSigned, 2⟩)).2 ∧
    p.node.validatorKeyHistory.validatorFor outOfTurnSigned.signer = some 2 ∧
    scheduledLeader p.node.validatorHistory 2 = some 3 := by
  decide +kernel

end Sample

end Boule
