import Boule.HotStuff.Calls

/-! One step of the core as changes of its records: the last voted view, the lock, the high
certificate and the view it has proposed in. -/
namespace Boule

/-- What is written to disk or sent. -/
def Action.isRecord : Action → Bool
  | .broadcast _ => true
  | .persist _ => true
  | _ => false

/-! ### The records of an accepted proposal -/

namespace HotStuffState
variable (P : Primitives) (s : HotStuffState) (p : Proposal)

theorem shouldUpdateHighQc_congr {qc : QuorumCertificate} {s s' : HotStuffState}
    (h : s'.highQc = s.highQc) : shouldUpdateHighQc qc s' = shouldUpdateHighQc qc s := by
  unfold shouldUpdateHighQc
  rw [h]

/-- The updates that go before the vote. -/
def voteUpdates : List Action :=
  if s.votesFor P p then
    .persist (.votedInView p.block.header.view) ::
      if shouldUpdateHighQc p.justify s then [.persist (.highQc p.justify)] else []
  else []

theorem castVote_eq : ((s.insertPending P p.block).castVote P p).2.1 = s.voteUpdates P p ∧
    ((s.insertPending P p.block).castVote P p).1.highQc =
      if s.votesFor P p ∧ shouldUpdateHighQc p.justify s then some p.justify else s.highQc := by
  have hqc : shouldUpdateHighQc p.justify { s.insertPending P p.block with
      lastVotedView := p.block.header.view } = shouldUpdateHighQc p.justify s :=
    shouldUpdateHighQc_congr (insertPending_highQc P s p.block)
  unfold castVote voteUpdates votesFor
  simp only [hqc]
  by_cases hv : safeToVote P p (s.insertPending P p.block) = true
  · by_cases hu : shouldUpdateHighQc p.justify s = true <;> simp [hv, hu]
  · simp [hv]

theorem acceptProposal_actions : (s.acceptProposal P p).2 =
    s.voteUpdates P p ++ s.lockActions P p ++
      (if s.votesFor P p then [.broadcast (.vote ⟨p.block.header.view, p.block.hash P⟩)] else []) ++
      ((s.commits P p).map Action.commit).toList := by
  unfold acceptProposal
  simp only [(castVote_eq P s p).1, updateLock_actions, (castVote_actions P _ p).2]
  congr 1
  · congr 1
    unfold votesFor
    split_ifs <;> rfl
  · unfold commitThreeChain
    rw [← commits_eq]
    cases s.commits P p <;> rfl

theorem kind_of_mem_acceptProposal {a : Action} (ha : a ∈ (s.acceptProposal P p).2) :
    (∃ update, a = .persist update) ∨ (∃ vote, a = .broadcast (.vote vote)) ∨
      ∃ b, a = .commit b := by
  rw [acceptProposal_actions, List.mem_append, List.mem_append, List.mem_append] at ha
  rcases ha with ((hvote | hlock) | hbroadcast) | hcommit
  · left
    unfold voteUpdates at hvote
    split_ifs at hvote
    · rcases List.mem_cons.mp hvote with rfl | hqc
      · exact ⟨_, rfl⟩
      · exact ⟨_, List.mem_singleton.mp hqc⟩
    · exact ⟨_, List.mem_singleton.mp hvote⟩
    · cases hvote
  · obtain ⟨l, rfl⟩ := mem_lockActions P s p hlock
    exact .inl ⟨_, rfl⟩
  · split_ifs at hbroadcast
    · exact .inr (.inl ⟨_, List.mem_singleton.mp hbroadcast⟩)
    · cases hbroadcast
  · rw [Option.mem_toList] at hcommit
    obtain ⟨b, -, rfl⟩ := Option.map_eq_some_iff.mp hcommit
    exact .inr (.inr ⟨b, rfl⟩)

theorem acceptProposal_highQc : (s.acceptProposal P p).1.highQc =
    if s.votesFor P p ∧ shouldUpdateHighQc p.justify s then some p.justify else s.highQc := by
  rw [← (castVote_eq P s p).2]
  unfold acceptProposal updateLock commitThreeChain
  simp only
  split <;> split <;> (try split_ifs) <;> rfl

end HotStuffState

namespace HotStuffCore
open HotStuffState

structure SameRecords (c c' : HotStuffCore) : Prop where
  lastVotedView : c'.state.lastVotedView = c.state.lastVotedView
  locked : c'.state.locked = c.state.locked
  highQc : c'.state.highQc = c.state.highQc
  proposedInView : c'.proposedInView = c.proposedInView

theorem SameRecords.of_state {c c' : HotStuffCore} (h : c'.state = c.state)
    (hp : c'.proposedInView = c.proposedInView) : SameRecords c c' :=
  ⟨by rw [h], by rw [h], by rw [h], hp⟩

theorem CacheOnly.sameRecords {c c' : HotStuffCore} (h : CacheOnly c c') : SameRecords c c' :=
  .of_state h.state h.proposedInView

/-- What the core does to its records and the actions it emits with it, in order. -/
inductive Emits (P : Primitives) :
    HotStuffCore → List AcceptCall → List Action → HotStuffCore → Prop
  | idle {c c' : HotStuffCore} {actions : List Action} (same : SameRecords c c')
    (quiet : ∀ a ∈ actions, a.isRecord = false) : Emits P c [] actions c'
  | accept (c : HotStuffCore) (p : Proposal) : Emits P c [(c.state, p)]
    (c.state.acceptProposal P p).2 { c with state := (c.state.acceptProposal P p).1 }
  | raise {c : HotStuffCore} {qc : QuorumCertificate}
    (higher : shouldUpdateHighQc qc c.state = true) :
    Emits P c [] [.persist (.highQc qc)] (c.setHighQc qc)
  | announce {c : HotStuffCore} {qc : QuorumCertificate} (known : c.state.highQc = some qc) :
    Emits P c [] [.broadcast (.newView ⟨qc⟩)] c
  | append {c₁ c₂ c₃ : HotStuffCore} {calls calls' : List AcceptCall}
    {actions actions' : List Action} (first : Emits P c₁ calls actions c₂)
    (second : Emits P c₂ calls' actions' c₃) :
    Emits P c₁ (calls ++ calls') (actions ++ actions') c₃

namespace Emits
variable {P : Primitives}

theorem silent {c c' : HotStuffCore} (h : SameRecords c c') : Emits P c [] [] c' :=
  .idle h fun _ ha => absurd ha List.not_mem_nil

theorem after {c₁ c₂ c₃ : HotStuffCore} {calls : List AcceptCall} {actions : List Action}
    (h : SameRecords c₁ c₂) (he : Emits P c₂ calls actions c₃) : Emits P c₁ calls actions c₃ :=
  (silent h).append he

theorem before {c₁ c₂ c₃ : HotStuffCore} {calls : List AcceptCall} {actions : List Action}
    (he : Emits P c₁ calls actions c₂) (h : SameRecords c₂ c₃) : Emits P c₁ calls actions c₃ := by
  have happend := he.append (silent (P := P) h)
  rwa [List.append_nil, List.append_nil] at happend

theorem sync {c c' : HotStuffCore} {actions : List Action} (h : CacheOnly c c')
    (ha : ∀ a ∈ actions, a.isRecord = false) : Emits P c [] actions c' :=
  .idle h.sameRecords ha

/-- Actions of which none is a record, after those of another list. -/
theorem append_quiet {c c' : HotStuffCore} {calls : List AcceptCall}
    {actions actions' : List Action} (he : Emits P c calls actions c')
    (hq : ∀ a ∈ actions', a.isRecord = false) : Emits P c calls (actions ++ actions') c' := by
  have happend := he.append (.idle (P := P) ⟨rfl, rfl, rfl, rfl⟩ hq)
  rwa [List.append_nil] at happend

end Emits

/-! ### Block sync and building -/

/-- Nothing is recorded. -/
structure Syncs (c : HotStuffCore) (r : HotStuffCore × List Action) : Prop where
  same : SameRecords c r.1
  quiet : ∀ a ∈ r.2, a.isRecord = false

theorem Syncs.emits {P : Primitives} {c : HotStuffCore} {r : HotStuffCore × List Action}
    (h : Syncs c r) : Emits P c [] r.2 r.1 := .idle h.same h.quiet

theorem SameRecords.refl (c : HotStuffCore) : SameRecords c c := ⟨rfl, rfl, rfl, rfl⟩

theorem SameRecords.trans {c₁ c₂ c₃ : HotStuffCore} (h : SameRecords c₁ c₂)
    (h' : SameRecords c₂ c₃) : SameRecords c₁ c₃ where
  lastVotedView := h'.lastVotedView.trans h.lastVotedView
  locked := h'.locked.trans h.locked
  highQc := h'.highQc.trans h.highQc
  proposedInView := h'.proposedInView.trans h.proposedInView

theorem Syncs.nothing {c c' : HotStuffCore} (h : SameRecords c c') : Syncs c (c', []) :=
  ⟨h, fun _ ha => absurd ha List.not_mem_nil⟩

theorem syncs_askAgain (c : HotStuffCore) (h : BlockHash) (e : BlockSyncInflight)
    (r : BlockSyncReason) : Syncs c (c.askAgain h e r) := by
  refine ⟨⟨rfl, rfl, rfl, rfl⟩, fun a ha => ?_⟩
  rw [List.mem_singleton.mp ha]
  rfl

theorem syncs_tryEmitBlockSyncRetry (c : HotStuffCore) (h : BlockHash) (sender : NodeId)
    (height : ℕ) (r : BlockSyncReason) : Syncs c (c.tryEmitBlockSyncRetry h sender height r) := by
  unfold tryEmitBlockSyncRetry
  cases c.blockSyncInflight.get? h with
  | none =>
    refine ⟨⟨rfl, rfl, rfl, rfl⟩, fun a ha => ?_⟩
    rw [List.mem_singleton.mp ha]
    rfl
  | some e =>
    simp only
    split_ifs
    · exact .nothing (.refl c)
    · exact .nothing (.refl c)
    · exact syncs_askAgain c h e r

theorem syncs_runBlockSyncRetryForParent (c : HotStuffCore) (h : BlockHash) :
    Syncs c (c.runBlockSyncRetryForParent h) := by
  unfold runBlockSyncRetryForParent
  cases c.blockSyncInflight.get? h with
  | none => exact .nothing (.refl c)
  | some e =>
    simp only
    split_ifs
    · exact .nothing (cacheOnly_dropParkedForParent c h).sameRecords
    · exact syncs_tryEmitBlockSyncRetry c h _ _ _

theorem syncs_runBlockSyncRetryTickForParent (c : HotStuffCore) (h : BlockHash) :
    Syncs c (c.runBlockSyncRetryTickForParent h) := by
  unfold runBlockSyncRetryTickForParent
  cases c.blockSyncInflight.get? h with
  | none => exact .nothing (.refl c)
  | some e =>
    simp only
    split_ifs
    · exact .nothing (cacheOnly_dropParkedForParent c h).sameRecords
    · exact syncs_askAgain c h e _

theorem syncs_forHashes {f : HotStuffCore → BlockHash → HotStuffCore × List Action}
    (hf : ∀ c h, Syncs c (f c h)) (c : HotStuffCore) (hs : List BlockHash) :
    Syncs c (forHashes f c hs) := by
  induction hs generalizing c with
  | nil => exact .nothing (.refl c)
  | cons h hs ih =>
    obtain ⟨hone, hquiet⟩ := hf c h
    obtain ⟨hrest, hquiets⟩ := ih (f c h).1
    refine ⟨hone.trans hrest, fun a ha => ?_⟩
    rcases List.mem_append.mp ha with ha | ha
    · exact hquiet a ha
    · exact hquiets a ha

theorem syncs_stepBlockSyncRetryTick (c : HotStuffCore) : Syncs c c.stepBlockSyncRetryTick :=
  syncs_forHashes syncs_runBlockSyncRetryTickForParent c _

theorem isRecord_buildProposalAtView (c : HotStuffCore) (view : ℕ) :
    ∀ a ∈ c.buildProposalAtView view, a.isRecord = false := by
  intro a ha
  obtain ⟨highQc, parent, rfl⟩ := mem_buildProposalAtView ha
  rfl

theorem isRecord_tryProposeAsLeader (c : HotStuffCore) (view : ℕ) :
    ∀ a ∈ c.tryProposeAsLeader view, a.isRecord = false := by
  intro a ha
  obtain ⟨highQc, parent, rfl⟩ := mem_tryProposeAsLeader ha
  rfl

theorem emits_newViewActions {P : Primitives} (c : HotStuffCore) :
    Emits P c [] c.newViewActions c := by
  unfold newViewActions
  cases h : c.state.highQc with
  | none => exact .silent (.refl _)
  | some qc => exact .announce h

/-! ### Proposals -/

theorem sameRecords_insertParked (P : Primitives) (c : HotStuffCore)
    (signed : Signed Proposal) : SameRecords c (c.insertParked P signed) := by
  obtain ⟨parked, hparked⟩ := insertParked_eq P c signed
  rw [hparked]
  exact ⟨rfl, rfl, rfl, rfl⟩

theorem emits_onProposalReceived (P : Primitives) (c : HotStuffCore)
    (signed : Signed Proposal) : Emits P c (c.proposalCalls signed)
      (c.onProposalReceived P signed).2 (c.onProposalReceived P signed).1 := by
  unfold proposalCalls
  cases hp : c.state.pendingBlocks.containsKey signed.payload.block.header.parentHash with
  | false =>
    rw [onProposalReceived_of_unknown hp]
    exact (syncs_tryEmitBlockSyncRetry _ _ _ _ _).emits.after (sameRecords_insertParked P c signed)
  | true =>
    rw [onProposalReceived_of_known hp, if_pos rfl]
    exact (Emits.accept c signed.payload).before ⟨rfl, rfl, rfl, rfl⟩

theorem emits_resumeParked (P : Primitives) (c : HotStuffCore) (h : BlockHash) :
    Emits P c ((c.parkedProposals.get? h).elim [] fun signed => c.proposalCalls signed)
      (c.resumeParked P h).2 (c.resumeParked P h).1 := by
  unfold resumeParked
  cases c.parkedProposals.get? h with
  | none => exact .silent (.refl _)
  | some signed =>
    have hsame : SameRecords c { c with
        parkedProposals := c.parkedProposals.erase h
        blockSyncInflight := c.blockSyncInflight.erase signed.payload.block.header.parentHash } :=
      ⟨rfl, rfl, rfl, rfl⟩
    exact (emits_onProposalReceived P _ signed).after hsame

theorem emits_forHashes_resumeParked (P : Primitives) (c : HotStuffCore) (hs : List BlockHash) :
    Emits P c (resumeCalls P c hs) (forHashes (resumeParked P) c hs).2
      (forHashes (resumeParked P) c hs).1 := by
  induction hs generalizing c with
  | nil => exact .silent (.refl c)
  | cons h hs ih => exact (emits_resumeParked P c h).append (ih (c.resumeParked P h).1)

/-! ### Votes and certificates -/

theorem emits_recordVote {P : Primitives} (c : HotStuffCore) (variant : VoteVariant) :
    Emits P c [] (c.recordVote P variant).2.1 (c.recordVote P variant).1 := by
  obtain ⟨bucket, dedupe, heq⟩ := recordVote_eq P c variant
  have hsame : SameRecords c (c.recordVote P variant).1 := by
    rw [heq]
    exact ⟨rfl, rfl, rfl, rfl⟩
  refine .idle hsame fun a ha => ?_
  obtain ⟨voter, view, blockA, blockB, rfl⟩ := mem_recordVote ha
  rfl

theorem emits_adoptFormed {P : Primitives} (c : HotStuffCore) (formed : QuorumCertificate) :
    Emits P c [] (c.adoptFormed formed).2 (c.adoptFormed formed).1 := by
  unfold adoptFormed
  split_ifs with h
  · exact .raise h
  · exact .silent (.refl _)

theorem emits_onVoteReceived (P : Primitives) (c : HotStuffCore) (variant : VoteVariant) :
    Emits P c [] (c.onVoteReceived P variant).2 (c.onVoteReceived P variant).1 := by
  have hrecord := emits_recordVote (P := P) c variant
  unfold onVoteReceived
  rcases hr : c.recordVote P variant with ⟨c', actions, formed⟩
  rw [hr] at hrecord
  cases formed with
  | none => exact hrecord
  | some formed =>
    exact (hrecord.append (emits_adoptFormed c' formed)).append_quiet
      (isRecord_tryProposeAsLeader _ _)

theorem emits_onNewViewReceived (P : Primitives) (c : HotStuffCore) (signed : Signed NewView) :
    Emits P c [] (c.onNewViewReceived signed).2 (c.onNewViewReceived signed).1 := by
  unfold onNewViewReceived
  simp only
  by_cases h : shouldUpdateHighQc signed.payload.highQc c.state = true
  · rw [if_neg (by simp [h])]
    split_ifs
    · exact .raise h
    · exact (Emits.raise h).append (syncs_tryEmitBlockSyncRetry _ _ _ _ _).emits
  · rw [if_pos (by simp [h])]
    exact .silent (.refl _)

theorem emits_onPacemakerAdvance (P : Primitives) (order : IterOrder) (c : HotStuffCore)
    (v : ℕ) : Emits P c (c.stepCalls P order (.pacemakerAdvance v))
      (c.onPacemakerAdvance P order v).2 (c.onPacemakerAdvance P order v).1 := by
  have hresume := emits_forHashes_resumeParked P (c.enterView v)
    (order.apply (c.enterView v).readyParked)
  simp only [onPacemakerAdvance, stepCalls]
  generalize forHashes (resumeParked P) (c.enterView v) (order.apply (c.enterView v).readyParked)
    = resumed at hresume ⊢
  have hretry := (syncs_forHashes syncs_runBlockSyncRetryForParent resumed.1
    resumed.1.parentHashesToRetry).emits (P := P)
  generalize forHashes runBlockSyncRetryForParent resumed.1 resumed.1.parentHashesToRetry
    = retried at hretry ⊢
  have hall := ((hresume.append hretry).append (emits_newViewActions retried.1)).append_quiet
    (isRecord_tryProposeAsLeader retried.1 v)
  rw [List.append_nil, List.append_nil] at hall
  have henter : SameRecords c (c.enterView v) := ⟨rfl, rfl, rfl, rfl⟩
  exact hall.after henter

theorem emits_step (P : Primitives) (order : IterOrder) (c : HotStuffCore) (e : Event) :
    Emits P c (c.stepCalls P order e) (c.step P order e).2 (c.step P order e).1 := by
  cases e with
  | proposalReceived verified =>
    obtain ⟨hcache, -⟩ := quiet_checkProposalDedupe c verified.value.payload.block.header.view
      verified.signerValidatorId (verified.value.payload.block.hash P)
    have hquiet : ∀ a ∈ (c.checkProposalDedupe verified.value.payload.block.header.view
        verified.signerValidatorId (verified.value.payload.block.hash P)).2,
        a.isRecord = false := by
      unfold checkProposalDedupe
      split
      · simp
      · split_ifs <;> simp [Action.isRecord]
    simp only [step, stepCalls]
    generalize c.checkProposalDedupe verified.value.payload.block.header.view
      verified.signerValidatorId (verified.value.payload.block.hash P) = r at hcache hquiet ⊢
    have hproposal := emits_onProposalReceived P r.1 verified.value
    rw [proposalCalls_congr hcache.state] at hproposal
    exact (Emits.sync hcache hquiet).append hproposal
  | voteReceived variant => exact emits_onVoteReceived P c variant
  | newViewReceived verified => exact emits_onNewViewReceived P c verified.value
  | pacemakerAdvance v => exact emits_onPacemakerAdvance P order c v

/-- The certificate that a core knows is replaced by later ones only. -/
theorem Emits.highQc_le {P : Primitives} {c c' : HotStuffCore} {calls : List AcceptCall}
    {actions : List Action} (h : Emits P c calls actions c') :
    ∀ qc ∈ c.state.highQc, ∃ qc' ∈ c'.state.highQc, qc.view ≤ qc'.view := by
  have hraise : ∀ {state : HotStuffState} {new qc : QuorumCertificate},
      shouldUpdateHighQc new state = true → state.highQc = some qc → qc.view ≤ new.view := by
    intro state new qc hnew hqc
    simp only [shouldUpdateHighQc, hqc, decide_eq_true_eq] at hnew
    exact Nat.le_of_lt hnew
  induction h with
  | idle same _ =>
    rw [same.highQc]
    exact fun qc hqc => ⟨qc, hqc, Nat.le_refl _⟩
  | accept c p =>
    intro qc hqc
    show ∃ qc' ∈ (c.state.acceptProposal P p).1.highQc, _
    rw [HotStuffState.acceptProposal_highQc]
    split_ifs with hu
    · exact ⟨p.justify, rfl, hraise hu.2 hqc⟩
    · exact ⟨qc, hqc, Nat.le_refl _⟩
  | raise higher => exact fun qc hqc => ⟨_, rfl, hraise higher hqc⟩
  | announce _ => exact fun qc hqc => ⟨qc, hqc, Nat.le_refl _⟩
  | append _ _ ih ih' =>
    intro qc hqc
    obtain ⟨qc', hqc', hle⟩ := ih qc hqc
    obtain ⟨qc'', hqc'', hle'⟩ := ih' qc' hqc'
    exact ⟨qc'', hqc'', hle.trans hle'⟩

end HotStuffCore

end Boule
