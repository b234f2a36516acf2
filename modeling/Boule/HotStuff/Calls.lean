import Boule.HotStuff.Core

/-! One step of the core as the proposals it accepts. Whatever else a step does leaves the
pending blocks, the lock and the last voted view alone and emits no safety action. -/
namespace Boule

namespace HotStuffState

/-- Equal in what the voting and commit rules read. -/
structure SameSafety (s s' : HotStuffState) : Prop where
  pendingBlocks : s'.pendingBlocks = s.pendingBlocks
  locked : s'.locked = s.locked
  lastVotedView : s'.lastVotedView = s.lastVotedView
  genesisHash : s'.genesisHash = s.genesisHash
  pendingBlocksCapacity : s'.pendingBlocksCapacity = s.pendingBlocksCapacity

theorem SameSafety.refl (s : HotStuffState) : SameSafety s s := ⟨rfl, rfl, rfl, rfl, rfl⟩

theorem SameSafety.of_eq {s s' : HotStuffState} (h : s' = s) : SameSafety s s' := h ▸ .refl s

theorem SameSafety.trans {s₁ s₂ s₃ : HotStuffState} (h : SameSafety s₁ s₂)
    (h' : SameSafety s₂ s₃) : SameSafety s₁ s₃ where
  pendingBlocks := h'.pendingBlocks.trans h.pendingBlocks
  locked := h'.locked.trans h.locked
  lastVotedView := h'.lastVotedView.trans h.lastVotedView
  genesisHash := h'.genesisHash.trans h.genesisHash
  pendingBlocksCapacity := h'.pendingBlocksCapacity.trans h.pendingBlocksCapacity

end HotStuffState

open HotStuffState

/-- A proposal accepted in a state. -/
abbrev AcceptCall := HotStuffState × Proposal

namespace AcceptCall

def next (P : Primitives) (call : AcceptCall) : HotStuffState :=
  (call.1.acceptProposal P call.2).1

def safetyActions (P : Primitives) (call : AcceptCall) : List Action :=
  (call.1.acceptProposal P call.2).2.filter Action.isSafety

theorem filterMap_committed_safetyActions (P : Primitives) (call : AcceptCall) :
    (call.safetyActions P).filterMap Action.committed? = (call.1.commits P call.2).toList := by
  have hlock : (call.1.lockActions P call.2).filterMap Action.committed? = [] := by
    refine List.filterMap_eq_nil_iff.mpr fun a ha => ?_
    obtain ⟨l, rfl⟩ := mem_lockActions P call.1 call.2 ha
    rfl
  rw [safetyActions, acceptProposal_safety, List.filterMap_append, List.filterMap_append,
    List.filterMap_append, hlock]
  cases call.1.votesFor P call.2 <;> cases call.1.commits P call.2 <;> rfl

end AcceptCall

theorem Action.filterMap_committed_filter (l : List Action) :
    (l.filter Action.isSafety).filterMap Action.committed? = l.filterMap Action.committed? := by
  rw [List.filterMap_filter]
  refine List.filterMap_congr fun a _ => ?_
  cases a <;> first | rfl | exact ite_self _

/-- `calls` lead from `s` to `s'`, with nothing safety-relevant in between. -/
def Linked (P : Primitives) : HotStuffState → List AcceptCall → HotStuffState → Prop
  | s, [], s' => SameSafety s s'
  | s, call :: calls, s' =>
    SameSafety s call.1 ∧
      call.1.pendingBlocks.containsKey call.2.block.header.parentHash = true ∧
      Linked P (call.next P) calls s'

namespace Linked
variable {P : Primitives}

theorem trans_same {s s' s'' : HotStuffState} {calls : List AcceptCall}
    (h : Linked P s calls s') (hs : SameSafety s' s'') : Linked P s calls s'' := by
  induction calls generalizing s with
  | nil => exact SameSafety.trans h hs
  | cons call calls ih => exact ⟨h.1, h.2.1, ih h.2.2⟩

theorem same_trans {s s' s'' : HotStuffState} {calls : List AcceptCall}
    (hs : SameSafety s s') (h : Linked P s' calls s'') : Linked P s calls s'' := by
  cases calls with
  | nil => exact SameSafety.trans hs h
  | cons call calls => exact ⟨hs.trans h.1, h.2.1, h.2.2⟩

theorem append {s s' s'' : HotStuffState} {calls calls' : List AcceptCall}
    (h : Linked P s calls s') (h' : Linked P s' calls' s'') :
    Linked P s (calls ++ calls') s'' := by
  induction calls generalizing s with
  | nil => exact same_trans h h'
  | cons call calls ih => exact ⟨h.1, h.2.1, ih h.2.2⟩

/-- An invariant of the state and of a log to which every accepted proposal appends. -/
theorem invariant {β : Type} (emit : AcceptCall → List β) (J : List β → HotStuffState → Prop)
    {s s' : HotStuffState} {calls : List AcceptCall}
    (hsame : ∀ {log s s'}, SameSafety s s' → J log s → J log s')
    (haccept : ∀ {log} (call : AcceptCall), call ∈ calls →
      call.1.pendingBlocks.containsKey call.2.block.header.parentHash = true →
      J log call.1 → J (log ++ emit call) (call.next P))
    (h : Linked P s calls s') {log : List β} (hJ : J log s) :
    J (log ++ calls.flatMap emit) s' := by
  induction calls generalizing s log with
  | nil =>
    rw [List.flatMap_nil, List.append_nil]
    exact hsame h hJ
  | cons call calls ih =>
    have hn := haccept call (List.mem_cons_self ..) h.2.1 (hsame h.1 hJ)
    rw [List.flatMap_cons, ← List.append_assoc]
    exact ih (fun c hc => haccept c (List.mem_cons_of_mem _ hc)) h.2.2 hn

end Linked

/-- The proposal an event delivers. -/
def Event.proposal? : Event → Option (Signed Proposal)
  | .proposalReceived verified => some verified.value
  | _ => none

namespace HotStuffCore

/-! ### What the handlers do

Each caches something, takes one of its branches, or emits one kind of action. -/

theorem evictParkedToFitOne_eq (c : HotStuffCore) :
    ∃ parked, c.evictParkedToFitOne = { c with parkedProposals := parked } := by
  unfold evictParkedToFitOne
  split_ifs
  · exact ⟨_, rfl⟩
  · split <;> exact ⟨_, rfl⟩

theorem insertParked_eq (P : Primitives) (c : HotStuffCore) (signed : Signed Proposal) :
    ∃ parked, c.insertParked P signed = { c with parkedProposals := parked } := by
  obtain ⟨parked, hparked⟩ := evictParkedToFitOne_eq c
  unfold insertParked
  simp only
  split_ifs
  · exact ⟨_, rfl⟩
  · rw [hparked]
    exact ⟨_, rfl⟩

theorem addToBucket_eq (P : Primitives) (c : HotStuffCore) (vote : Vote) (vs : ValidatorSet)
    (i : ℕ) (bls : BlsPartialSig) : ∃ bucket,
      (c.addToBucket P vote vs i bls).1 = { c with voteBucket := bucket } := by
  have hevict : ∃ bucket, c.evictVoteBucketsToFitOne = { c with voteBucket := bucket } := by
    unfold evictVoteBucketsToFitOne
    split_ifs
    · exact ⟨_, rfl⟩
    · split <;> exact ⟨_, rfl⟩
  obtain ⟨bucket, hbucket⟩ := hevict
  unfold addToBucket
  simp only
  split_ifs
  · exact ⟨_, rfl⟩
  · rw [hbucket]
    exact ⟨_, rfl⟩

theorem recordVote_eq (P : Primitives) (c : HotStuffCore) (variant : VoteVariant) :
    ∃ bucket dedupe, (c.recordVote P variant).1 =
      { c with voteBucket := bucket, voteDedupe := dedupe } := by
  unfold recordVote
  simp only
  split
  · exact ⟨_, _, rfl⟩
  · split
    · obtain ⟨bucket, hbucket⟩ := addToBucket_eq P { c with
        voteDedupe := c.voteDedupe.insert (variant.signed.value.payload.view,
          variant.signed.signerValidatorId) variant.signed.value.payload.blockHash }
        variant.signed.value.payload
        (c.state.validatorHistory.setAt variant.signed.value.payload.view) _ variant.bls
      exact ⟨bucket, _, hbucket⟩
    · split_ifs
      · obtain ⟨bucket, hbucket⟩ := addToBucket_eq P c variant.signed.value.payload
          (c.state.validatorHistory.setAt variant.signed.value.payload.view) _ variant.bls
        exact ⟨bucket, _, hbucket⟩
      · exact ⟨_, _, rfl⟩

theorem mem_recordVote {P : Primitives} {c : HotStuffCore} {variant : VoteVariant} {a : Action}
    (ha : a ∈ (c.recordVote P variant).2.1) :
    ∃ voter view blockA blockB, a = .equivocationEvidence voter view blockA blockB := by
  unfold recordVote at ha
  simp only at ha
  split at ha
  · cases ha
  · split at ha
    · cases ha
    · split_ifs at ha
      · cases ha
      · exact ⟨_, _, _, _, List.mem_singleton.mp ha⟩

theorem mem_buildProposalAtView {c : HotStuffCore} {view : ℕ} {a : Action}
    (ha : a ∈ c.buildProposalAtView view) :
    ∃ highQc parent, a = .buildProposal view highQc parent := by
  unfold buildProposalAtView at ha
  split_ifs at ha
  · cases ha
  · split at ha
    · cases ha
    · split at ha
      · cases ha
      · exact ⟨_, _, List.mem_singleton.mp ha⟩

theorem mem_tryProposeAsLeader {c : HotStuffCore} {view : ℕ} {a : Action}
    (ha : a ∈ c.tryProposeAsLeader view) :
    ∃ highQc parent, a = .buildProposal view highQc parent := by
  unfold tryProposeAsLeader at ha
  split_ifs at ha
  · cases ha
  · exact mem_buildProposalAtView ha

theorem onProposalReceived_of_unknown {P : Primitives} {c : HotStuffCore}
    {signed : Signed Proposal}
    (h : c.state.pendingBlocks.containsKey signed.payload.block.header.parentHash = false) :
    c.onProposalReceived P signed = c.parkProposal P signed := by
  unfold onProposalReceived
  simp [h]

theorem onProposalReceived_of_known {P : Primitives} {c : HotStuffCore} {signed : Signed Proposal}
    (h : c.state.pendingBlocks.containsKey signed.payload.block.header.parentHash = true) :
    c.onProposalReceived P signed = ({ c with
      state := (c.state.acceptProposal P signed.payload).1
      blockSyncInflight := c.blockSyncInflight.erase (signed.payload.block.hash P) },
      (c.state.acceptProposal P signed.payload).2) := by
  unfold onProposalReceived
  simp [h]

/-! ### Quiet parts -/

/-- Equal but for the proposal dedupe table, the requests in flight and dropped parked
proposals. -/
structure CacheOnly (c c' : HotStuffCore) : Prop where
  selfId : c'.selfId = c.selfId
  state : c'.state = c.state
  voteBucket : c'.voteBucket = c.voteBucket
  voteDedupe : c'.voteDedupe = c.voteDedupe
  proposedInView : c'.proposedInView = c.proposedInView
  limits : c'.limits = c.limits
  parked : ∀ {h signed}, c'.parkedProposals.get? h = some signed →
    c.parkedProposals.get? h = some signed

theorem CacheOnly.refl (c : HotStuffCore) : CacheOnly c c := ⟨rfl, rfl, rfl, rfl, rfl, rfl, id⟩

theorem CacheOnly.trans {c₁ c₂ c₃ : HotStuffCore} (h : CacheOnly c₁ c₂) (h' : CacheOnly c₂ c₃) :
    CacheOnly c₁ c₃ where
  selfId := h'.selfId.trans h.selfId
  state := h'.state.trans h.state
  voteBucket := h'.voteBucket.trans h.voteBucket
  voteDedupe := h'.voteDedupe.trans h.voteDedupe
  proposedInView := h'.proposedInView.trans h.proposedInView
  limits := h'.limits.trans h.limits
  parked := fun hs => h.parked (h'.parked hs)

/-- A cache change with actions that are not safety actions. -/
def Quiet (c : HotStuffCore) (r : HotStuffCore × List Action) : Prop :=
  CacheOnly c r.1 ∧ r.2.filter Action.isSafety = []

theorem cacheOnly_dropParkedForParent (c : HotStuffCore) (h : BlockHash) :
    CacheOnly c (c.dropParkedForParent h) :=
  ⟨rfl, rfl, rfl, rfl, rfl, rfl, fun hs => Table.get?_of_retain hs⟩

theorem cacheOnly_evictParkedToFitOne (c : HotStuffCore) : CacheOnly c c.evictParkedToFitOne := by
  unfold evictParkedToFitOne
  split_ifs
  · exact .refl c
  · split
    · exact .refl c
    · exact ⟨rfl, rfl, rfl, rfl, rfl, rfl, fun hs => Table.get?_of_erase hs⟩

theorem quiet_askAgain (c : HotStuffCore) (h : BlockHash) (e : BlockSyncInflight)
    (r : BlockSyncReason) : Quiet c (c.askAgain h e r) :=
  ⟨⟨rfl, rfl, rfl, rfl, rfl, rfl, id⟩, rfl⟩

theorem quiet_tryEmitBlockSyncRetry (c : HotStuffCore) (h : BlockHash) (sender : NodeId)
    (height : ℕ) (r : BlockSyncReason) : Quiet c (c.tryEmitBlockSyncRetry h sender height r) := by
  unfold tryEmitBlockSyncRetry
  cases c.blockSyncInflight.get? h with
  | none => exact ⟨⟨rfl, rfl, rfl, rfl, rfl, rfl, id⟩, rfl⟩
  | some e =>
    simp only
    split_ifs
    · exact ⟨.refl c, rfl⟩
    · exact ⟨.refl c, rfl⟩
    · exact quiet_askAgain c h e r

theorem quiet_runBlockSyncRetryTickForParent (c : HotStuffCore) (h : BlockHash) :
    Quiet c (c.runBlockSyncRetryTickForParent h) := by
  unfold runBlockSyncRetryTickForParent
  cases c.blockSyncInflight.get? h with
  | none => exact ⟨.refl c, rfl⟩
  | some e =>
    simp only
    split_ifs
    · exact ⟨cacheOnly_dropParkedForParent c h, rfl⟩
    · exact quiet_askAgain c h e _

theorem quiet_runBlockSyncRetryForParent (c : HotStuffCore) (h : BlockHash) :
    Quiet c (c.runBlockSyncRetryForParent h) := by
  unfold runBlockSyncRetryForParent
  cases c.blockSyncInflight.get? h with
  | none => exact ⟨.refl c, rfl⟩
  | some e =>
    simp only
    split_ifs
    · exact ⟨cacheOnly_dropParkedForParent c h, rfl⟩
    · exact quiet_tryEmitBlockSyncRetry c h _ _ _

theorem quiet_forHashes {f : HotStuffCore → BlockHash → HotStuffCore × List Action}
    (hf : ∀ c h, Quiet c (f c h)) (c : HotStuffCore) (hs : List BlockHash) :
    Quiet c (forHashes f c hs) := by
  induction hs generalizing c with
  | nil => exact ⟨.refl c, rfl⟩
  | cons h hs ih =>
    obtain ⟨hc, ha⟩ := hf c h
    obtain ⟨hc', ha'⟩ := ih (f c h).1
    refine ⟨hc.trans hc', ?_⟩
    show ((f c h).2 ++ (forHashes f (f c h).1 hs).2).filter Action.isSafety = []
    rw [List.filter_append, ha, ha', List.append_nil]

theorem quiet_stepBlockSyncRetryTick (c : HotStuffCore) : Quiet c c.stepBlockSyncRetryTick :=
  quiet_forHashes quiet_runBlockSyncRetryTickForParent c _

theorem quiet_checkProposalDedupe (c : HotStuffCore) (v : ℕ) (leader : ValidatorId)
    (h : BlockHash) : Quiet c (c.checkProposalDedupe v leader h) := by
  unfold checkProposalDedupe
  cases c.proposalDedupe.get? (v, leader) with
  | none => exact ⟨⟨rfl, rfl, rfl, rfl, rfl, rfl, id⟩, rfl⟩
  | some b =>
    simp only
    split_ifs <;> exact ⟨.refl c, rfl⟩

theorem filter_buildProposalAtView (c : HotStuffCore) (v : ℕ) :
    (c.buildProposalAtView v).filter Action.isSafety = [] := by
  refine List.filter_eq_nil_iff.mpr fun a ha => ?_
  obtain ⟨highQc, parent, rfl⟩ := mem_buildProposalAtView ha
  exact Bool.false_ne_true

theorem filter_tryProposeAsLeader (c : HotStuffCore) (v : ℕ) :
    (c.tryProposeAsLeader v).filter Action.isSafety = [] := by
  refine List.filter_eq_nil_iff.mpr fun a ha => ?_
  obtain ⟨highQc, parent, rfl⟩ := mem_tryProposeAsLeader ha
  exact Bool.false_ne_true

/-! ### The proposals a step accepts -/

def proposalCalls (c : HotStuffCore) (signed : Signed Proposal) : List AcceptCall :=
  if c.state.pendingBlocks.containsKey signed.payload.block.header.parentHash then
    [(c.state, signed.payload)]
  else []

def resumeCalls (P : Primitives) : HotStuffCore → List BlockHash → List AcceptCall
  | _, [] => []
  | c, h :: hs =>
    ((c.parkedProposals.get? h).elim [] fun signed => c.proposalCalls signed) ++
      resumeCalls P (c.resumeParked P h).1 hs

/-- The calls of `acceptProposal` that the step makes, in order. -/
def stepCalls (P : Primitives) (order : IterOrder) (c : HotStuffCore) : Event → List AcceptCall
  | .proposalReceived verified => c.proposalCalls verified.value
  | .pacemakerAdvance v => resumeCalls P (c.enterView v) (order.apply (c.enterView v).readyParked)
  | .voteReceived _ => []
  | .newViewReceived _ => []

/-- What a handler that may accept proposals does: the accepted ones are linked and account
for all safety actions, and nothing but `extra` is parked anew. -/
structure Handles (P : Primitives) (c : HotStuffCore) (extra : Option (Signed Proposal))
    (calls : List AcceptCall) (r : HotStuffCore × List Action) : Prop where
  linked : Linked P c.state calls r.1.state
  actions : r.2.filter Action.isSafety = calls.flatMap (AcceptCall.safetyActions P)
  parked : ∀ {h signed}, r.1.parkedProposals.get? h = some signed →
    some signed = extra ∨ ∃ h', c.parkedProposals.get? h' = some signed

theorem insertParked_state (P : Primitives) (c : HotStuffCore) (signed : Signed Proposal) :
    (c.insertParked P signed).state = c.state := by
  obtain ⟨parked, hparked⟩ := insertParked_eq P c signed
  rw [hparked]

theorem get?_insertParked {P : Primitives} {c : HotStuffCore} {signed x : Signed Proposal}
    {h : BlockHash} (hx : (c.insertParked P signed).parkedProposals.get? h = some x) :
    x = signed ∨ c.parkedProposals.get? h = some x := by
  unfold insertParked at hx
  simp only at hx
  rw [Table.get?_insert] at hx
  split_ifs at hx
  · exact .inl (Option.some.inj hx).symm
  · exact .inr hx
  · exact .inr ((cacheOnly_evictParkedToFitOne c).parked hx)

theorem handles_parkProposal (P : Primitives) (c : HotStuffCore) (signed : Signed Proposal) :
    Handles P c (some signed) [] (c.parkProposal P signed) := by
  obtain ⟨hq, ha⟩ := quiet_tryEmitBlockSyncRetry (c.insertParked P signed)
    signed.payload.block.header.parentHash signed.signer
    (signed.payload.block.header.height - 1) .unknownParentOnProposal
  refine ⟨.of_eq (hq.state.trans (insertParked_state P c signed)), ha, fun {h x} hx => ?_⟩
  rcases get?_insertParked (hq.parked hx) with rfl | hx
  · exact .inl rfl
  · exact .inr ⟨h, hx⟩

theorem handles_onProposalReceived (P : Primitives) (c : HotStuffCore)
    (signed : Signed Proposal) :
    Handles P c (some signed) (c.proposalCalls signed) (c.onProposalReceived P signed) := by
  unfold proposalCalls
  cases hp : c.state.pendingBlocks.containsKey signed.payload.block.header.parentHash with
  | false =>
    rw [onProposalReceived_of_unknown hp]
    exact handles_parkProposal P c signed
  | true =>
    rw [onProposalReceived_of_known hp, if_pos rfl]
    exact ⟨⟨.refl _, hp, .refl _⟩, (List.flatMap_singleton ..).symm, fun hx => .inr ⟨_, hx⟩⟩

theorem handles_resumeParked (P : Primitives) (c : HotStuffCore) (h : BlockHash) :
    Handles P c none ((c.parkedProposals.get? h).elim [] fun signed => c.proposalCalls signed)
      (c.resumeParked P h) := by
  unfold resumeParked
  cases hs : c.parkedProposals.get? h with
  | none => exact ⟨.refl _, rfl, fun hx => .inr ⟨_, hx⟩⟩
  | some signed =>
    obtain ⟨hl, ha, hp⟩ := handles_onProposalReceived P { c with
      parkedProposals := c.parkedProposals.erase h
      blockSyncInflight := c.blockSyncInflight.erase signed.payload.block.header.parentHash } signed
    refine ⟨hl, ha, fun hx => .inr ?_⟩
    rcases hp hx with he | ⟨h', hh⟩
    · exact ⟨h, Option.some.inj he ▸ hs⟩
    · exact ⟨h', Table.get?_of_erase hh⟩

theorem handles_forHashes_resumeParked (P : Primitives) (c : HotStuffCore)
    (hs : List BlockHash) :
    Handles P c none (resumeCalls P c hs) (forHashes (resumeParked P) c hs) := by
  induction hs generalizing c with
  | nil => exact ⟨.refl _, rfl, fun hx => .inr ⟨_, hx⟩⟩
  | cons h hs ih =>
    obtain ⟨hl, ha, hp⟩ := handles_resumeParked P c h
    obtain ⟨hl', ha', hp'⟩ := ih (c.resumeParked P h).1
    refine ⟨hl.append hl', ?_, fun hx => .inr ?_⟩
    · show ((c.resumeParked P h).2 ++
        (forHashes (resumeParked P) (c.resumeParked P h).1 hs).2).filter Action.isSafety = _
      rw [List.filter_append, ha, ha', resumeCalls, List.flatMap_append]
    · obtain he | ⟨h', hh⟩ := hp' hx
      · cases he
      · obtain he | hh := hp hh
        · cases he
        · exact hh

/-! ### Votes -/

/-- Only the vote bucket and the vote dedupe table may differ. -/
structure VotesOnly (c c' : HotStuffCore) : Prop where
  selfId : c'.selfId = c.selfId
  state : c'.state = c.state
  parkedProposals : c'.parkedProposals = c.parkedProposals
  limits : c'.limits = c.limits

theorem recordVote_frame (P : Primitives) (c : HotStuffCore) (variant : VoteVariant) :
    VotesOnly c (c.recordVote P variant).1 ∧
      (c.recordVote P variant).2.1.filter Action.isSafety = [] := by
  obtain ⟨bucket, dedupe, heq⟩ := recordVote_eq P c variant
  constructor
  · rw [heq]
    exact ⟨rfl, rfl, rfl, rfl⟩
  · refine List.filter_eq_nil_iff.mpr fun a ha => ?_
    obtain ⟨voter, view, blockA, blockB, rfl⟩ := mem_recordVote ha
    exact Bool.false_ne_true

theorem sameSafety_setHighQc (c : HotStuffCore) (qc : QuorumCertificate) :
    SameSafety c.state (c.setHighQc qc).state := ⟨rfl, rfl, rfl, rfl, rfl⟩

theorem sameSafety_enterView (c : HotStuffCore) (v : ℕ) :
    SameSafety c.state (c.enterView v).state := ⟨rfl, rfl, rfl, rfl, rfl⟩

theorem adoptFormed_frame (c : HotStuffCore) (qc : QuorumCertificate) :
    SameSafety c.state (c.adoptFormed qc).1.state ∧
      (c.adoptFormed qc).1.parkedProposals = c.parkedProposals ∧
      (c.adoptFormed qc).2.filter Action.isSafety = [] := by
  unfold adoptFormed
  split_ifs
  · exact ⟨c.sameSafety_setHighQc qc, rfl, rfl⟩
  · exact ⟨.refl _, rfl, rfl⟩

theorem handles_onVoteReceived (P : Primitives) (c : HotStuffCore) (variant : VoteVariant) :
    Handles P c none [] (c.onVoteReceived P variant) := by
  obtain ⟨hv, ha⟩ := recordVote_frame P c variant
  unfold onVoteReceived
  rcases hr : c.recordVote P variant with ⟨c', acts, formed⟩
  rw [hr] at hv ha
  cases formed with
  | none => exact ⟨.of_eq hv.state, ha, fun hx => .inr ⟨_, hv.parkedProposals ▸ hx⟩⟩
  | some qc =>
    obtain ⟨hs, hp, hf⟩ := adoptFormed_frame c' qc
    refine ⟨(SameSafety.of_eq hv.state).trans hs, ?_, fun {h signed} hx => .inr ⟨h, ?_⟩⟩
    · show (acts ++ (c'.adoptFormed qc).2 ++ _).filter Action.isSafety = []
      rw [List.filter_append, List.filter_append, ha, hf, filter_tryProposeAsLeader]
      rfl
    · rw [← hv.parkedProposals]
      exact hp ▸ hx

theorem handles_onNewViewReceived (P : Primitives) (c : HotStuffCore) (signed : Signed NewView) :
    Handles P c none [] (c.onNewViewReceived signed) := by
  unfold onNewViewReceived
  simp only
  split_ifs
  · exact ⟨.refl _, rfl, fun hx => .inr ⟨_, hx⟩⟩
  · exact ⟨c.sameSafety_setHighQc _, rfl, fun hx => .inr ⟨_, hx⟩⟩
  · obtain ⟨hq, ha⟩ := quiet_tryEmitBlockSyncRetry (c.setHighQc signed.payload.highQc)
      signed.payload.highQc.blockHash signed.signer 0 .unknownHighQcOnNewView
    refine ⟨(c.sameSafety_setHighQc signed.payload.highQc).trans (.of_eq hq.state), ?_,
      fun hx => .inr ⟨_, hq.parked hx⟩⟩
    rw [List.filter_cons]
    exact ha

theorem filter_newViewActions (c : HotStuffCore) :
    c.newViewActions.filter Action.isSafety = [] := by
  unfold newViewActions
  cases c.state.highQc <;> rfl

theorem handles_onPacemakerAdvance (P : Primitives) (order : IterOrder) (c : HotStuffCore)
    (v : ℕ) :
    Handles P c none (c.stepCalls P order (.pacemakerAdvance v))
      (c.onPacemakerAdvance P order v) := by
  obtain ⟨hl, ha, hp⟩ := handles_forHashes_resumeParked P (c.enterView v)
    (order.apply (c.enterView v).readyParked)
  simp only [onPacemakerAdvance, stepCalls]
  generalize forHashes (resumeParked P) (c.enterView v) (order.apply (c.enterView v).readyParked)
    = r at hl ha hp ⊢
  obtain ⟨hq, hr⟩ := quiet_forHashes quiet_runBlockSyncRetryForParent r.1 r.1.parentHashesToRetry
  refine ⟨?_, ?_, fun hx => hp (hq.parked hx)⟩
  · exact (Linked.same_trans (c.sameSafety_enterView v) hl).trans_same (.of_eq hq.state)
  · simp only [List.filter_append, filter_tryProposeAsLeader, filter_newViewActions, hr, ha,
      List.append_nil]

theorem proposalCalls_congr {c c' : HotStuffCore} (h : c'.state = c.state)
    (signed : Signed Proposal) : c'.proposalCalls signed = c.proposalCalls signed := by
  unfold proposalCalls
  rw [h]

theorem handles_step (P : Primitives) (order : IterOrder) (c : HotStuffCore) (e : Event) :
    Handles P c e.proposal? (c.stepCalls P order e) (c.step P order e) := by
  cases e with
  | proposalReceived verified =>
    obtain ⟨hq, hr⟩ := quiet_checkProposalDedupe c verified.value.payload.block.header.view
      verified.signerValidatorId (verified.value.payload.block.hash P)
    simp only [step, stepCalls, Event.proposal?]
    generalize c.checkProposalDedupe verified.value.payload.block.header.view
      verified.signerValidatorId (verified.value.payload.block.hash P) = r at hq hr ⊢
    obtain ⟨hl, ha, hp⟩ := handles_onProposalReceived P r.1 verified.value
    rw [proposalCalls_congr hq.state] at hl ha
    refine ⟨hq.state ▸ hl, ?_, fun hx => (hp hx).imp_right fun ⟨h', hh⟩ => ⟨h', hq.parked hh⟩⟩
    show (r.2 ++ _).filter Action.isSafety = _
    rw [List.filter_append, hr, ← ha]
    rfl
  | voteReceived variant => exact handles_onVoteReceived P c variant
  | newViewReceived verified => exact handles_onNewViewReceived P c verified.value
  | pacemakerAdvance v => exact handles_onPacemakerAdvance P order c v

/-- The blocks a step commits are those of the proposals it accepts. -/
theorem filterMap_committed_step (P : Primitives) (order : IterOrder) (c : HotStuffCore)
    (e : Event) : (c.step P order e).2.filterMap Action.committed? =
      (c.stepCalls P order e).flatMap fun call => (call.1.commits P call.2).toList := by
  rw [← Action.filterMap_committed_filter, (handles_step P order c e).actions,
    List.filterMap_flatMap]
  simp only [AcceptCall.filterMap_committed_safetyActions]

theorem mem_proposalCalls {c : HotStuffCore} {signed : Signed Proposal} {call : AcceptCall}
    (h : call ∈ c.proposalCalls signed) : call.2 = signed.payload := by
  unfold proposalCalls at h
  split_ifs at h
  · rw [List.mem_singleton.mp h]
  · simp at h

theorem mem_resumeCalls {P : Primitives} {c : HotStuffCore} {hs : List BlockHash}
    {call : AcceptCall} (h : call ∈ resumeCalls P c hs) :
    ∃ k signed, c.parkedProposals.get? k = some signed ∧ call.2 = signed.payload := by
  induction hs generalizing c with
  | nil => simp [resumeCalls] at h
  | cons k hs ih =>
    rw [resumeCalls, List.mem_append] at h
    rcases h with h | h
    · cases hk : c.parkedProposals.get? k with
      | none => simp [hk] at h
      | some signed =>
        rw [hk] at h
        exact ⟨k, signed, hk, mem_proposalCalls h⟩
    · obtain ⟨k', signed, hk, hc⟩ := ih h
      rcases (handles_resumeParked P c k).parked hk with he | ⟨k'', hk''⟩
      · cases he
      · exact ⟨k'', signed, hk'', hc⟩

/-- An accepted proposal was delivered by the event or was parked. -/
theorem mem_stepCalls {P : Primitives} {order : IterOrder} {c : HotStuffCore} {e : Event}
    {call : AcceptCall} (h : call ∈ c.stepCalls P order e) :
    ∃ signed, call.2 = signed.payload ∧
      (e.proposal? = some signed ∨ ∃ k, c.parkedProposals.get? k = some signed) := by
  cases e with
  | proposalReceived verified => exact ⟨verified.value, mem_proposalCalls h, .inl rfl⟩
  | pacemakerAdvance v =>
    obtain ⟨k, signed, hk, hc⟩ := mem_resumeCalls h
    exact ⟨signed, hc, .inr ⟨k, hk⟩⟩
  | voteReceived variant => simp [stepCalls] at h
  | newViewReceived verified => simp [stepCalls] at h

end HotStuffCore

theorem sameSafety_insertValidatorBoundary {c c' : HotStuffCore} {vEff : ℕ} {set : ValidatorSet}
    (h : c.insertValidatorBoundary vEff set = .ok c') : SameSafety c.state c'.state := by
  obtain ⟨history, -, h⟩ := bind_eq_ok.mp h
  obtain rfl := Except.ok.inj h
  exact ⟨rfl, rfl, rfl, rfl, rfl⟩

end Boule
