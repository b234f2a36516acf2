import Boule.HotStuff.VoteEvictions

/-! When a core asks its node for a proposal: as the leader of a view that it enters, or of the view
after one for which a vote completes a certificate. -/
namespace Boule

/-- The view, the certificate and the parent that a proposal is asked for. -/
def Action.request? : Action → Option (ℕ × QuorumCertificate × Block)
  | .buildProposal view highQc parent => some (view, highQc, parent)
  | _ => none

def Action.proposal? : Action → Option Proposal
  | .broadcast (.proposal p) => some p
  | _ => none

/-- The view of the proposal that the action puts on record. -/
def Action.proposedIn? : Action → Option ℕ
  | .persist (.proposedInView view) => some view
  | _ => none

namespace HotStuffCore

/-! ### What a step asks for -/

/-- The core stays who it is and asks for no proposal. -/
structure Unasking (c : HotStuffCore) (r : HotStuffCore × List Action) : Prop where
  selfId : r.1.selfId = c.selfId
  unasked : r.2.filterMap Action.request? = []

theorem Unasking.of_forall {c : HotStuffCore} {r : HotStuffCore × List Action}
    (hself : r.1.selfId = c.selfId) (h : ∀ a ∈ r.2, a.request? = none) : Unasking c r :=
  ⟨hself, List.filterMap_eq_nil_iff.mpr h⟩

theorem Unasking.append {c : HotStuffCore} {r r' : HotStuffCore × List Action}
    (h : Unasking c r) (h' : Unasking r.1 r') : Unasking c (r'.1, r.2 ++ r'.2) := by
  refine ⟨h'.selfId.trans h.selfId, ?_⟩
  rw [List.filterMap_append, h.unasked, h'.unasked, List.append_nil]

theorem Unasking.requests_append {c : HotStuffCore} {r : HotStuffCore × List Action}
    (h : Unasking c r) (actions : List Action) :
    (r.2 ++ actions).filterMap Action.request? = actions.filterMap Action.request? := by
  rw [List.filterMap_append, h.unasked, List.nil_append]

section
variable (P : Primitives) (c : HotStuffCore)

theorem unasking_forHashes {f : HotStuffCore → BlockHash → HotStuffCore × List Action}
    (hf : ∀ c h, Unasking c (f c h)) (hs : List BlockHash) : Unasking c (forHashes f c hs) := by
  induction hs generalizing c with
  | nil => exact ⟨rfl, rfl⟩
  | cons h hs ih => exact (hf c h).append (ih (f c h).1)

theorem unasking_tryEmitBlockSyncRetry (h : BlockHash) (sender : NodeId) (height : ℕ)
    (r : BlockSyncReason) : Unasking c (c.tryEmitBlockSyncRetry h sender height r) := by
  unfold tryEmitBlockSyncRetry
  cases c.blockSyncInflight.get? h with
  | none => exact ⟨rfl, rfl⟩
  | some e =>
    simp only
    split_ifs <;> exact ⟨rfl, rfl⟩

theorem unasking_runBlockSyncRetryForParent (h : BlockHash) :
    Unasking c (c.runBlockSyncRetryForParent h) := by
  unfold runBlockSyncRetryForParent
  cases c.blockSyncInflight.get? h with
  | none => exact ⟨rfl, rfl⟩
  | some e =>
    simp only
    split_ifs
    · exact ⟨rfl, rfl⟩
    · exact unasking_tryEmitBlockSyncRetry c h _ _ _

theorem unasking_onProposalReceived (signed : Signed Proposal) :
    Unasking c (c.onProposalReceived P signed) := by
  cases hp : c.state.pendingBlocks.containsKey signed.payload.block.header.parentHash with
  | false =>
    obtain ⟨parked, hparked⟩ := insertParked_eq P c signed
    have hsync := unasking_tryEmitBlockSyncRetry (c.insertParked P signed)
      signed.payload.block.header.parentHash signed.signer
      (signed.payload.block.header.height - 1) .unknownParentOnProposal
    rw [onProposalReceived_of_unknown hp]
    refine ⟨hsync.selfId.trans ?_, hsync.unasked⟩
    rw [hparked]
  | true =>
    rw [onProposalReceived_of_known hp]
    refine .of_forall rfl fun a ha => ?_
    have hkind := HotStuffState.kind_of_mem_acceptProposal P c.state signed.payload ha
    rcases hkind with ⟨u, rfl⟩ | ⟨v, rfl⟩ | ⟨b, rfl⟩ <;> rfl

theorem unasking_resumeParked (h : BlockHash) : Unasking c (c.resumeParked P h) := by
  unfold resumeParked
  cases c.parkedProposals.get? h with
  | none => exact ⟨rfl, rfl⟩
  | some signed =>
    have hrest := unasking_onProposalReceived P { c with
      parkedProposals := c.parkedProposals.erase h
      blockSyncInflight := c.blockSyncInflight.erase signed.payload.block.header.parentHash } signed
    exact ⟨hrest.selfId, hrest.unasked⟩

theorem unasking_onNewViewReceived (signed : Signed NewView) :
    Unasking c (c.onNewViewReceived signed) := by
  unfold onNewViewReceived
  simp only
  split_ifs
  · exact ⟨rfl, rfl⟩
  · exact ⟨rfl, rfl⟩
  · have hsync := unasking_tryEmitBlockSyncRetry (c.setHighQc signed.payload.highQc)
      signed.payload.highQc.blockHash signed.signer 0 .unknownHighQcOnNewView
    exact ⟨hsync.selfId, hsync.unasked⟩

theorem unasking_recordVote (variant : VoteVariant) :
    Unasking c ((c.recordVote P variant).1, (c.recordVote P variant).2.1) := by
  refine .of_forall (recordVote_frame P c variant).1.selfId fun a ha => ?_
  obtain ⟨voter, view, blockA, blockB, rfl⟩ := mem_recordVote ha
  rfl

theorem unasking_adoptFormed (formed : QuorumCertificate) :
    Unasking c (c.adoptFormed formed) := by
  unfold adoptFormed
  split_ifs <;> exact ⟨rfl, rfl⟩

theorem unasking_checkProposalDedupe (view : ℕ) (leader : ValidatorId) (h : BlockHash) :
    Unasking c (c.checkProposalDedupe view leader h) := by
  unfold checkProposalDedupe
  cases c.proposalDedupe.get? (view, leader) with
  | none => exact ⟨rfl, rfl⟩
  | some b =>
    simp only
    split_ifs <;> exact ⟨rfl, rfl⟩

theorem unasking_newViewActions : Unasking c (c, c.newViewActions) := by
  unfold newViewActions
  cases c.state.highQc <;> exact ⟨rfl, rfl⟩

/-- The view that the event makes the core look at as a leader: the one it enters, or the one after
that of the certificate that a vote completes. -/
def promptedView (input : IterOrder × Event) : Option ℕ :=
  match input.2 with
  | .pacemakerAdvance v => some v
  | .voteReceived variant =>
    (c.recordVote P variant).2.2.map fun _ => addU64 variant.signed.value.payload.view 1
  | _ => none

/-- The step looks at one view at most, once everything else is done. -/
theorem requests_step (input : IterOrder × Event) :
    (c.next P input).selfId = c.selfId ∧
      (c.step P input.1 input.2).2.filterMap Action.request? =
        (c.promptedView P input).elim [] fun w =>
          ((c.next P input).tryProposeAsLeader w).filterMap Action.request? := by
  obtain ⟨order, event⟩ := input
  cases event with
  | proposalReceived verified =>
    have hdedupe := unasking_checkProposalDedupe c verified.value.payload.block.header.view
      verified.signerValidatorId (verified.value.payload.block.hash P)
    have hrest := hdedupe.append (unasking_onProposalReceived P _ verified.value)
    exact ⟨hrest.selfId, hrest.unasked⟩
  | newViewReceived verified =>
    have hrest := unasking_onNewViewReceived c verified.value
    exact ⟨hrest.selfId, hrest.unasked⟩
  | pacemakerAdvance v =>
    have hresumed := unasking_forHashes (c.enterView v) (unasking_resumeParked P)
      (order.apply (c.enterView v).readyParked)
    have hretried := unasking_forHashes
      (forHashes (resumeParked P) (c.enterView v) (order.apply (c.enterView v).readyParked)).1
      unasking_runBlockSyncRetryForParent
      (forHashes (resumeParked P) (c.enterView v)
        (order.apply (c.enterView v).readyParked)).1.parentHashesToRetry
    have hrest := (hresumed.append hretried).append (unasking_newViewActions _)
    exact ⟨hrest.selfId, hrest.requests_append _⟩
  | voteReceived variant =>
    have hrecord := unasking_recordVote P c variant
    unfold next
    simp only [step, promptedView, onVoteReceived]
    rcases hr : c.recordVote P variant with ⟨c', actions, formed⟩
    rw [hr] at hrecord
    cases formed with
    | none => exact ⟨hrecord.selfId, hrecord.unasked⟩
    | some formed =>
      have hrest := hrecord.append (unasking_adoptFormed c' formed)
      exact ⟨hrest.selfId, hrest.requests_append _⟩

/-- The high certificate with its block. -/
def tip : Option (QuorumCertificate × Block) :=
  c.state.highQc.bind fun qc => (c.state.pendingBlocks.get? qc.blockHash).map (qc, ·)

/-- The core leads the view and has proposed in none as late. -/
def MayPropose (w : ℕ) : Prop :=
  roundRobinLeader (c.state.validatorHistory.setAt w) w = some c.selfId ∧ c.proposedInView < w

instance : DecidablePred c.MayPropose := fun _ => inferInstanceAs (Decidable (_ ∧ _))

/-- A leader that may propose asks for a block on that of the high certificate. -/
theorem request_tryProposeAsLeader (w : ℕ) :
    (c.tryProposeAsLeader w).filterMap Action.request? =
      if c.MayPropose w then (c.tip.map fun t => (w, t.1, t.2)).toList else [] := by
  unfold tryProposeAsLeader buildProposalAtView tip
  by_cases hmay : c.MayPropose w
  · have hleads := hmay.1
    have hproposed := hmay.2
    rw [if_pos hmay, if_neg (not_not.mpr hleads), if_neg (Nat.not_le.mpr hproposed)]
    cases c.state.highQc with
    | none => rfl
    | some qc =>
      simp only [Option.bind_some]
      cases c.state.pendingBlocks.get? qc.blockHash <;> rfl
  · rw [if_neg hmay]
    split_ifs with hleads hproposed
    · rfl
    · rfl
    · exact absurd ⟨not_not.mp hleads, Nat.not_le.mp hproposed⟩ hmay

end

/-- What the step asks for. -/
def requested (P : Primitives) (c : HotStuffCore) (input : IterOrder × Event) :
    Option (ℕ × QuorumCertificate × Block) :=
  (c.promptedView P input).bind fun w =>
    if (c.next P input).MayPropose w then (c.next P input).tip.map (w, ·) else none

theorem findSome?_request (P : Primitives) (c : HotStuffCore) (input : IterOrder × Event) :
    (c.step P input.1 input.2).2.findSome? Action.request? = c.requested P input := by
  rw [← List.head?_filterMap, (requests_step P c input).2, requested]
  cases c.promptedView P input with
  | none => rfl
  | some w =>
    simp only [Option.elim_some, Option.bind_some, request_tryProposeAsLeader]
    split_ifs
    · cases (c.next P input).tip <;> rfl
    · rfl

/-- A step neither sends a proposal nor puts one on record. -/
theorem Emits.proposes_nothing {P : Primitives} {c c' : HotStuffCore} {calls : List AcceptCall}
    {actions : List Action} (h : Emits P c calls actions c') :
    c'.proposedInView = c.proposedInView ∧
      ∀ a ∈ actions, a.proposal? = none ∧ a.proposedIn? = none := by
  induction h with
  | idle same quiet =>
    refine ⟨same.proposedInView, fun a ha => ?_⟩
    have hquiet := quiet a ha
    cases a <;> first | exact ⟨rfl, rfl⟩ | cases hquiet
  | accept c p =>
    refine ⟨rfl, fun a ha => ?_⟩
    rw [HotStuffState.acceptProposal_actions, List.mem_append, List.mem_append,
      List.mem_append] at ha
    rcases ha with ((hvote | hlock) | hsent) | hcommit
    · unfold HotStuffState.voteUpdates at hvote
      split_ifs at hvote
      · rcases List.mem_cons.mp hvote with rfl | hqc
        · exact ⟨rfl, rfl⟩
        · rw [List.mem_singleton.mp hqc]
          exact ⟨rfl, rfl⟩
      · rw [List.mem_singleton.mp hvote]
        exact ⟨rfl, rfl⟩
      · cases hvote
    · obtain ⟨l, rfl⟩ := HotStuffState.mem_lockActions P c.state p hlock
      exact ⟨rfl, rfl⟩
    · split_ifs at hsent
      · rw [List.mem_singleton.mp hsent]
        exact ⟨rfl, rfl⟩
      · cases hsent
    · obtain ⟨b, -, rfl⟩ := Option.map_eq_some_iff.mp (Option.mem_toList.mp hcommit)
      exact ⟨rfl, rfl⟩
  | raise _ => exact ⟨rfl, by simp [Action.proposal?, Action.proposedIn?]⟩
  | announce _ => exact ⟨rfl, by simp [Action.proposal?, Action.proposedIn?]⟩
  | append first second ih ih' =>
    refine ⟨ih'.1.trans ih.1, fun a ha => ?_⟩
    rcases List.mem_append.mp ha with ha | ha
    · exact ih.2 a ha
    · exact ih'.2 a ha

end HotStuffCore

/-! ### Requests that are answered -/

/-- What a step is given: an event, and the block that the node builds if the step asks for one. -/
structure ReplicaTurn where
  order : IterOrder
  event : Event
  built : Option Block

def ReplicaTurn.input (turn : ReplicaTurn) : IterOrder × Event := (turn.order, turn.event)

namespace HotStuffCore

/-- A step whose request for a proposal, if it has one, is answered at once. What the node sends
itself comes as turns of its own. -/
def serve (P : Primitives) (c : HotStuffCore) (turn : ReplicaTurn) : HotStuffCore × List Action :=
  let (c, actions) := c.step P turn.order turn.event
  match actions.findSome? Action.request?, turn.built with
  | some (view, highQc, _), some block =>
    let (c, proposed) := c.proposalBuilt view block highQc
    (c, actions ++ proposed)
  | _, _ => (c, actions)

/-- The view of the proposal that the turn leads to, and the proposal. -/
def proposes (P : Primitives) (c : HotStuffCore) (turn : ReplicaTurn) : Option (ℕ × Proposal) :=
  (c.requested P turn.input).bind fun r => turn.built.map fun block => (r.1, ⟨block, r.2.1⟩)

/-- A turn is a step and the proposal it leads to. -/
theorem serve_eq (P : Primitives) (c : HotStuffCore) (turn : ReplicaTurn) :
    c.serve P turn = match c.proposes P turn with
      | none => c.step P turn.order turn.event
      | some (w, p) => ((c.next P turn.input).withProposedInView w,
          (c.step P turn.order turn.event).2 ++
            [.persist (.proposedInView w), .broadcast (.proposal p)]) := by
  have hfind := findSome?_request P c turn.input
  unfold serve proposes
  simp only [show (c.step P turn.order turn.event).2.findSome? Action.request? = _ from hfind]
  cases c.requested P turn.input with
  | none => rfl
  | some r => cases turn.built <;> rfl

variable (P : Primitives) (c : HotStuffCore) (turn : ReplicaTurn)

theorem proposals_serve : (c.serve P turn).2.filterMap Action.proposal? =
      ((c.proposes P turn).map Prod.snd).toList ∧
    (c.serve P turn).2.filterMap Action.proposedIn? =
      ((c.proposes P turn).map Prod.fst).toList ∧
    (c.serve P turn).1.proposedInView =
      ((c.proposes P turn).map Prod.fst).getD c.proposedInView := by
  obtain ⟨hkept, hnone⟩ := (emits_step P turn.order c turn.event).proposes_nothing
  have hproposal : (c.step P turn.order turn.event).2.filterMap Action.proposal? = [] :=
    List.filterMap_eq_nil_iff.mpr fun a ha => (hnone a ha).1
  have hrecord : (c.step P turn.order turn.event).2.filterMap Action.proposedIn? = [] :=
    List.filterMap_eq_nil_iff.mpr fun a ha => (hnone a ha).2
  rw [serve_eq]
  cases c.proposes P turn with
  | none => exact ⟨hproposal, hrecord, hkept⟩
  | some r =>
    simp only [List.filterMap_append, hproposal, hrecord]
    exact ⟨rfl, rfl, rfl⟩

end HotStuffCore

namespace Booth

/-- The turn as a step of the booth. -/
def serve (P : Primitives) (b : Booth) (turn : ReplicaTurn) : Booth :=
  { b.hear P turn.input with core := (b.core.serve P turn).1 }

/-- All actions of a run, in order. -/
def served (P : Primitives) : Booth → List ReplicaTurn → List Action
  | _, [] => []
  | b, turn :: turns => (b.core.serve P turn).2 ++ served P (b.serve P turn) turns

/-- The event enters the view, or it is a vote of the view before with which the voters of its block
come to outweigh the others. -/
def Prompts (P : Primitives) (w : ℕ) (b : Booth) (input : IterOrder × Event) : Prop :=
  input.2 = .pacemakerAdvance w ∨ ∃ k : ℕ × BlockHash, w = addU64 k.1 1 ∧
    b.votesFor k input ≠ [] ∧ ¬ (b.setAt k.1).Outweighs (b.votersOf k) ∧
      (b.setAt k.1).Outweighs ((b.hear P input).votersOf k)

variable {P : Primitives} {b : Booth} {turn : ReplicaTurn} {input : IterOrder × Event}

theorem served_append (turns turns' : List ReplicaTurn) :
    b.served P (turns ++ turns') = b.served P turns ++ (run (serve P) b turns).served P turns' := by
  induction turns generalizing b with
  | nil => rfl
  | cons turn turns ih => rw [List.cons_append, served, served, ih, List.append_assoc, run_cons]

/-- A turn changes the core as its step does, but for the view it has proposed in. -/
theorem core_serve (P : Primitives) (b : Booth) (turn : ReplicaTurn) :
    ∃ view, (b.serve P turn).core =
      (b.hear P turn.input).core.withProposedInView view := by
  show ∃ view, (b.core.serve P turn).1 = (b.core.next P turn.input).withProposedInView view
  rw [HotStuffCore.serve_eq]
  cases b.core.proposes P turn with
  | none => exact ⟨_, rfl⟩
  | some r => exact ⟨r.1, rfl⟩

theorem bucketsOk_serve (h : BucketsOk b) : BucketsOk (b.serve P turn) := by
  obtain ⟨view, hview⟩ := core_serve P b turn
  refine VoteBuckets.bucketsOk_of_sameVotes (bucketsOk_hear (P := P) h turn.input) ?_ rfl
  rw [hview]
  exact ⟨rfl, rfl, rfl⟩

theorem setAt_serve (P : Primitives) (b : Booth) (turn : ReplicaTurn) (view : ℕ) :
    (b.serve P turn).setAt view = b.setAt view := by
  obtain ⟨u, hu⟩ := core_serve P b turn
  have hset := setAt_hear (P := P) (b := b) turn.input view
  show (b.serve P turn).core.state.validatorHistory.setAt view = _
  rw [hu]
  exact hset

theorem selfId_serve : (b.serve P turn).core.selfId = b.core.selfId := by
  obtain ⟨u, hu⟩ := core_serve P b turn
  rw [hu]
  exact (HotStuffCore.requests_step P b.core turn.input).1

/-- A vote counts for its own view and block only. -/
theorem key_of_votesFor {k : ℕ × BlockHash} {order : IterOrder} {variant : VoteVariant}
    (h : b.votesFor k (order, .voteReceived variant) ≠ []) :
    (variant.signed.value.payload.view, variant.signed.value.payload.blockHash) = k := by
  by_contra hne
  exact h (if_neg fun hboth => hne hboth.1)

/-- The last view it has proposed in is that of the proposal, if there is one. -/
theorem proposedInView_serve : (b.serve P turn).core.proposedInView =
    ((b.core.proposes P turn).map Prod.fst).getD b.core.proposedInView :=
  (HotStuffCore.proposals_serve P b.core turn).2.2

/-- The core looks at a view exactly when the booth is prompted. -/
theorem prompts_iff (h : BucketsOk b) (w : ℕ) :
    b.Prompts P w input ↔ b.core.promptedView P input = some w := by
  have hforms : (∃ k : ℕ × BlockHash, w = addU64 k.1 1 ∧ b.votesFor k input ≠ [] ∧
      ¬ (b.setAt k.1).Outweighs (b.votersOf k) ∧
        (b.setAt k.1).Outweighs ((b.hear P input).votersOf k)) ↔
      ∃ k : ℕ × BlockHash, w = addU64 k.1 1 ∧ b.Forms P k input ∧ b.votesFor k input ≠ [] := by
    refine exists_congr fun k => and_congr_right fun _ => ?_
    rw [forms_iff h]
    exact ⟨fun hk => ⟨hk, hk.1⟩, fun hk => hk.1⟩
  unfold Prompts
  rw [hforms]
  obtain ⟨order, event⟩ := input
  cases event with
  | proposalReceived verified => simp [votesFor, HotStuffCore.promptedView]
  | newViewReceived verified => simp [votesFor, HotStuffCore.promptedView]
  | pacemakerAdvance v =>
    simp only [HotStuffCore.promptedView, Option.some.injEq, Event.pacemakerAdvance.injEq]
    refine ⟨fun hw => ?_, .inl⟩
    rcases hw with hw | ⟨k, -, -, hvotes⟩
    · exact hw
    · exact absurd rfl hvotes
  | voteReceived variant =>
    simp only [HotStuffCore.promptedView, reduceCtorEq, false_or, Option.map_eq_some_iff]
    constructor
    · rintro ⟨k, hw, ⟨formed, hformed, -⟩, hvotes⟩
      refine ⟨formed, hformed, ?_⟩
      rw [hw, ← key_of_votesFor hvotes]
    · rintro ⟨formed, hformed, hw⟩
      have hforms : b.Forms P (formed.view, formed.blockHash) (order, .voteReceived variant) :=
        ⟨formed, hformed, rfl⟩
      have hvotes := ((forms_iff h).mp hforms).1
      refine ⟨_, ?_, hforms, hvotes⟩
      rw [← hw, ← key_of_votesFor hvotes]

/-- A replica that starts, or that goes on from the last view it has proposed in. -/
def resume (selfId : NodeId) (state : HotStuffState) (limits : CacheLimits) (proposed : ℕ) :
    Booth where
  core := (HotStuffCore.withLimits selfId state limits).withProposedInView proposed
  reached := fun _ => []

/-- The turn makes the core propose `p` for view `w`, when it has proposed for the views of `log`:
it is prompted, leads the view, has proposed in none as late and knows the block of its high
certificate, and its node builds a block. -/
structure Called (P : Primitives) (log : List ℕ) (b : Booth) (turn : ReplicaTurn) (w : ℕ)
    (p : Proposal) : Prop where
  prompted : b.Prompts P w turn.input
  leads : roundRobinLeader (b.setAt w) w = some b.core.selfId
  first : ∀ view ∈ log, view < w
  tip : ∃ parent, (b.hear P turn.input).core.tip = some (p.justify, parent)
  built : turn.built = some p.block

/-- The views in which a replica has proposed, in order, and the last of them. -/
structure Marked (log : List ℕ) (view : ℕ) : Prop where
  rises : log.Pairwise (· < ·)
  mem : view ∈ log
  last : ∀ v ∈ log, v ≤ view

theorem Marked.singleton (view : ℕ) : Marked [view] view :=
  ⟨List.pairwise_singleton _ _, List.mem_singleton_self _,
    fun _ hv => (List.mem_singleton.mp hv).le⟩

theorem Marked.all_lt_iff {log : List ℕ} {view : ℕ} (h : Marked log view) (w : ℕ) :
    (∀ v ∈ log, v < w) ↔ view < w :=
  ⟨fun hall => hall view h.mem, fun hlt v hv => (h.last v hv).trans_lt hlt⟩

theorem Marked.concat {log : List ℕ} {view w : ℕ} (h : Marked log view) (hlt : view < w) :
    Marked (log ++ [w]) w := by
  refine ⟨List.pairwise_append.mpr ⟨h.rises, List.pairwise_singleton _ _, ?_⟩, by simp, ?_⟩
  · intro v hv u hu
    rw [List.mem_singleton.mp hu]
    exact (h.last v hv).trans_lt hlt
  · intro v hv
    rcases List.mem_append.mp hv with hv | hv
    · exact (h.last v hv).trans hlt.le
    · exact (List.mem_singleton.mp hv).le

theorem mayPropose_hear (P : Primitives) (b : Booth) (input : IterOrder × Event) (w : ℕ) :
    (b.core.next P input).MayPropose w ↔
    roundRobinLeader (b.setAt w) w = some b.core.selfId ∧ b.core.proposedInView < w := by
  have hself := (HotStuffCore.requests_step P b.core input).1
  have hkept := (HotStuffCore.emits_step P input.1 b.core input.2).proposes_nothing.1
  have hset : (b.core.next P input).state.validatorHistory.setAt w = b.setAt w :=
    setAt_hear (P := P) input w
  unfold HotStuffCore.MayPropose
  rw [hself, hset, show (b.core.next P input).proposedInView = _ from hkept]

/-- A turn leads to a proposal exactly when the booth is called. -/
theorem proposes_iff {log : List ℕ} (h : BucketsOk b) (hlog : Marked log b.core.proposedInView)
    (w : ℕ) (p : Proposal) :
    b.core.proposes P turn = some (w, p) ↔ b.Called P log turn w p := by
  have hmay := mayPropose_hear P b turn.input w
  rw [← hlog.all_lt_iff] at hmay
  unfold HotStuffCore.proposes HotStuffCore.requested
  constructor
  · intro hp
    obtain ⟨r, hr, hp⟩ := Option.bind_eq_some_iff.mp hp
    obtain ⟨w', hw', hr⟩ := Option.bind_eq_some_iff.mp hr
    split_ifs at hr with hasks
    obtain ⟨t, ht, rfl⟩ := Option.map_eq_some_iff.mp hr
    obtain ⟨block, hblock, hpair⟩ := Option.map_eq_some_iff.mp hp
    obtain ⟨rfl, rfl⟩ := Prod.mk.inj hpair
    have hleads := hmay.mp hasks
    exact ⟨(prompts_iff h _).mpr hw', hleads.1, hleads.2, ⟨t.2, ht⟩, hblock⟩
  · intro hc
    obtain ⟨parent, htip⟩ := hc.tip
    have htip' : (b.core.next P turn.input).tip = some (p.justify, parent) := htip
    rw [(prompts_iff h w).mp hc.prompted, Option.bind_some, if_pos (hmay.mpr ⟨hc.leads, hc.first⟩),
      htip', hc.built]
    rfl

/-- What a run keeps. -/
structure Kept (b₀ : Booth) (log : List ℕ) (b : Booth) : Prop where
  buckets : BucketsOk b
  setAt : ∀ view, b.setAt view = b₀.setAt view
  selfId : b.core.selfId = b₀.core.selfId
  marked : Marked log b.core.proposedInView

theorem Kept.serve {b₀ : Booth} {log : List ℕ} (h : Kept b₀ log b) (turn : ReplicaTurn) :
    Kept b₀ (log ++ (b.core.serve P turn).2.filterMap Action.proposedIn?) (b.serve P turn) := by
  obtain ⟨-, hrecords, -⟩ := HotStuffCore.proposals_serve P b.core turn
  refine ⟨bucketsOk_serve h.buckets, fun view => (setAt_serve P b turn view).trans (h.setAt view),
    selfId_serve.trans h.selfId, ?_⟩
  rw [hrecords, proposedInView_serve]
  cases hp : b.core.proposes P turn with
  | none => simpa using h.marked
  | some r =>
    have hcalled := (proposes_iff h.buckets h.marked r.1 r.2).mp hp
    exact h.marked.concat (hcalled.first _ h.marked.mem)

theorem kept_run {b₀ : Booth} {log : List ℕ} (h : Kept b₀ log b) (turns : List ReplicaTurn) :
    Kept b₀ (log ++ (b.served P turns).filterMap Action.proposedIn?)
      (run (serve P) b turns) := by
  induction turns generalizing b log with
  | nil => simpa [served] using h
  | cons turn turns ih =>
    rw [served, List.filterMap_append, ← List.append_assoc]
    exact ih (h.serve turn)

theorem kept_resume (selfId : NodeId) (state : HotStuffState) (limits : CacheLimits)
    (proposed : ℕ) : Kept (resume selfId state limits proposed) [proposed]
      (resume selfId state limits proposed) where
  buckets := VoteBuckets.bucketsOk_of_sameVotes
    (VoteBuckets.bucketsOk_start selfId state limits) ⟨rfl, rfl, rfl⟩ rfl
  setAt := fun _ => rfl
  selfId := rfl
  marked := .singleton proposed

/-- The turn leads to the proposal that the booth is called for, and to none without a call. -/
structure AnswersCalls (P : Primitives) (log : List ℕ) (b : Booth) (turn : ReplicaTurn) : Prop where
  proposes : ∀ w p, b.Called P log turn w p ↔
    (b.core.serve P turn).2.filterMap Action.proposedIn? = [w] ∧
      (b.core.serve P turn).2.filterMap Action.proposal? = [p]
  silent : (∀ w p, ¬ b.Called P log turn w p) →
    (b.core.serve P turn).2.filterMap Action.proposedIn? = [] ∧
      (b.core.serve P turn).2.filterMap Action.proposal? = []

theorem Kept.answersCalls {b₀ : Booth} {log : List ℕ} (h : Kept b₀ log b) (turn : ReplicaTurn) :
    b.AnswersCalls P log turn := by
  obtain ⟨hproposals, hrecords, -⟩ := HotStuffCore.proposals_serve P b.core turn
  constructor
  · intro w p
    rw [hproposals, hrecords, ← proposes_iff h.buckets h.marked]
    cases b.core.proposes P turn with
    | none => simp
    | some r => simp [Prod.ext_iff]
  · intro hnone
    rw [hproposals, hrecords]
    cases hp : b.core.proposes P turn with
    | none => exact ⟨rfl, rfl⟩
    | some r =>
      exact absurd ((proposes_iff h.buckets h.marked r.1 r.2).mp hp) (hnone r.1 r.2)

end Booth

/-- In every state of every run a turn makes the replica propose exactly when it is called, and the
views it proposes in only rise. It is called when a view that it enters prompts it, or the vote that
completes a quorum for a block of the view before, it leads the view and has proposed in none as
late, and the block of its high certificate is there. -/
theorem proposals_prompted (P : Primitives) (selfId : NodeId) (state : HotStuffState)
    (limits : CacheLimits) (proposed : ℕ) (turns : List ReplicaTurn) :
    (proposed :: ((Booth.resume selfId state limits proposed).served P turns).filterMap
        Action.proposedIn?).Pairwise (· < ·) ∧
      ∀ turn, (run (Booth.serve P) (.resume selfId state limits proposed) turns).AnswersCalls P
        (proposed :: ((Booth.resume selfId state limits proposed).served P turns).filterMap
          Action.proposedIn?) turn := by
  have hkept := Booth.kept_run (P := P) (Booth.kept_resume selfId state limits proposed) turns
  exact ⟨hkept.marked.rises, hkept.answersCalls⟩

end Boule
