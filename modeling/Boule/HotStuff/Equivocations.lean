import Boule.HotStuff.Records
import Boule.HotStuff.Votes

/-! Which steps of the core report an equivocation, and what its dedupe tables hold. -/
namespace Boule

def Action.isEvidence : Action → Bool
  | .equivocationEvidence .. => true
  | .proposalEquivocationEvidence .. => true
  | _ => false

theorem filter_isEvidence_of_silent {l : List Action} (h : ∀ a ∈ l, a.isEvidence = false) :
    l.filter Action.isEvidence = [] := by
  rw [List.filter_eq_nil_iff]
  intro a ha
  rw [h a ha]
  exact Bool.false_ne_true

/-- The view, the voter and the block of the vote that the event is. -/
def Event.voteKey? : Event → Option (ℕ × ValidatorId × BlockHash)
  | .voteReceived variant => some (variant.signed.value.payload.view,
    variant.signed.signerValidatorId, variant.signed.value.payload.blockHash)
  | _ => none

/-- The view, the leader and the block of the proposal that the event is. -/
def Event.proposalKey? (P : Primitives) : Event → Option (ℕ × ValidatorId × BlockHash)
  | .proposalReceived verified => some (verified.value.payload.block.header.view,
    verified.signerValidatorId, verified.value.payload.block.hash P)
  | _ => none

namespace HotStuffCore

/-- No proposal is noted and nothing is reported. -/
structure Unremarked (c : HotStuffCore) (r : HotStuffCore × List Action) : Prop where
  proposalDedupe : r.1.proposalDedupe = c.proposalDedupe
  silent : ∀ a ∈ r.2, a.isEvidence = false

theorem Unremarked.nothing {c c' : HotStuffCore} (h : c'.proposalDedupe = c.proposalDedupe) :
    Unremarked c (c', []) := ⟨h, fun _ ha => absurd ha List.not_mem_nil⟩

theorem Unremarked.append {c : HotStuffCore} {r r' : HotStuffCore × List Action}
    (h : Unremarked c r) (h' : Unremarked r.1 r') : Unremarked c (r'.1, r.2 ++ r'.2) := by
  refine ⟨h'.proposalDedupe.trans h.proposalDedupe, fun a ha => ?_⟩
  rcases List.mem_append.mp ha with ha | ha
  · exact h.silent a ha
  · exact h'.silent a ha

section
variable (P : Primitives) (c : HotStuffCore)

theorem unremarked_forHashes {f : HotStuffCore → BlockHash → HotStuffCore × List Action}
    (hf : ∀ c h, Unremarked c (f c h)) (hs : List BlockHash) :
    Unremarked c (forHashes f c hs) := by
  induction hs generalizing c with
  | nil => exact .nothing rfl
  | cons h hs ih => exact (hf c h).append (ih (f c h).1)

theorem unremarked_askAgain (h : BlockHash) (e : BlockSyncInflight) (r : BlockSyncReason) :
    Unremarked c (c.askAgain h e r) := ⟨rfl, by simp [askAgain, Action.isEvidence]⟩

theorem unremarked_tryEmitBlockSyncRetry (h : BlockHash) (sender : NodeId) (height : ℕ)
    (r : BlockSyncReason) : Unremarked c (c.tryEmitBlockSyncRetry h sender height r) := by
  unfold tryEmitBlockSyncRetry
  cases c.blockSyncInflight.get? h with
  | none => exact ⟨rfl, by simp [Action.isEvidence]⟩
  | some e =>
    simp only
    split_ifs
    · exact .nothing rfl
    · exact .nothing rfl
    · exact unremarked_askAgain c h e r

theorem unremarked_runBlockSyncRetryForParent (h : BlockHash) :
    Unremarked c (c.runBlockSyncRetryForParent h) := by
  unfold runBlockSyncRetryForParent
  cases c.blockSyncInflight.get? h with
  | none => exact .nothing rfl
  | some e =>
    simp only
    split_ifs
    · exact .nothing rfl
    · exact unremarked_tryEmitBlockSyncRetry c h _ _ _

theorem silent_tryProposeAsLeader (v : ℕ) :
    ∀ a ∈ c.tryProposeAsLeader v, a.isEvidence = false := by
  intro a ha
  obtain ⟨highQc, parent, rfl⟩ := mem_tryProposeAsLeader ha
  rfl

theorem silent_acceptProposal (s : HotStuffState) (p : Proposal) :
    ∀ a ∈ (s.acceptProposal P p).2, a.isEvidence = false := by
  intro a ha
  have hkind := HotStuffState.kind_of_mem_acceptProposal P s p ha
  rcases hkind with ⟨u, rfl⟩ | ⟨v, rfl⟩ | ⟨b, rfl⟩ <;> rfl

theorem unremarked_onProposalReceived (signed : Signed Proposal) :
    Unremarked c (c.onProposalReceived P signed) := by
  cases hp : c.state.pendingBlocks.containsKey signed.payload.block.header.parentHash with
  | false =>
    obtain ⟨parked, hparked⟩ := insertParked_eq P c signed
    have hsync := unremarked_tryEmitBlockSyncRetry (c.insertParked P signed)
      signed.payload.block.header.parentHash signed.signer
      (signed.payload.block.header.height - 1) .unknownParentOnProposal
    rw [onProposalReceived_of_unknown hp]
    refine ⟨hsync.proposalDedupe.trans ?_, hsync.silent⟩
    rw [hparked]
  | true =>
    rw [onProposalReceived_of_known hp]
    exact ⟨rfl, silent_acceptProposal P c.state signed.payload⟩

theorem unremarked_resumeParked (h : BlockHash) : Unremarked c (c.resumeParked P h) := by
  unfold resumeParked
  cases c.parkedProposals.get? h with
  | none => exact .nothing rfl
  | some signed =>
    have hrest := unremarked_onProposalReceived P { c with
      parkedProposals := c.parkedProposals.erase h
      blockSyncInflight := c.blockSyncInflight.erase signed.payload.block.header.parentHash } signed
    exact ⟨hrest.proposalDedupe, hrest.silent⟩

theorem unremarked_onNewViewReceived (signed : Signed NewView) :
    Unremarked c (c.onNewViewReceived signed) := by
  unfold onNewViewReceived
  simp only
  split_ifs
  · exact .nothing rfl
  · exact ⟨rfl, by simp [Action.isEvidence]⟩
  · have hsync := unremarked_tryEmitBlockSyncRetry (c.setHighQc signed.payload.highQc)
      signed.payload.highQc.blockHash signed.signer 0 .unknownHighQcOnNewView
    refine ⟨hsync.proposalDedupe, fun a ha => ?_⟩
    rcases List.mem_cons.mp ha with rfl | ha
    · rfl
    · exact hsync.silent a ha

theorem unremarked_onPacemakerAdvance (order : IterOrder) (v : ℕ) :
    Unremarked (c.enterView v) (c.onPacemakerAdvance P order v) := by
  have hresume := unremarked_forHashes (c.enterView v) (unremarked_resumeParked P)
    (order.apply (c.enterView v).readyParked)
  have hretry := unremarked_forHashes
    (forHashes (resumeParked P) (c.enterView v) (order.apply (c.enterView v).readyParked)).1
    unremarked_runBlockSyncRetryForParent
    (forHashes (resumeParked P) (c.enterView v)
      (order.apply (c.enterView v).readyParked)).1.parentHashesToRetry
  have hboth := hresume.append hretry
  refine ⟨hboth.proposalDedupe, fun a ha => ?_⟩
  rcases List.mem_append.mp ha with ha | ha
  · rcases List.mem_append.mp ha with ha | ha
    · exact hboth.silent a ha
    · unfold newViewActions at ha
      rw [Option.mem_toList, Option.map_eq_some_iff] at ha
      obtain ⟨qc, -, rfl⟩ := ha
      rfl
  · exact silent_tryProposeAsLeader _ v a ha

/-- A vote is reported when the voter has voted for another block in its view. -/
theorem recordVote_remarks (variant : VoteVariant) :
    (c.recordVote P variant).1.proposalDedupe = c.proposalDedupe ∧
      ((c.recordVote P variant).2.1 = [] ∨ ∃ blockA,
        c.voteDedupe.get? (variant.signed.value.payload.view, variant.signed.signerValidatorId) =
            some blockA ∧ blockA ≠ variant.signed.value.payload.blockHash ∧
          (c.recordVote P variant).2.1 = [.equivocationEvidence variant.signed.signerValidatorId
            variant.signed.value.payload.view blockA variant.signed.value.payload.blockHash]) := by
  obtain ⟨bucket, dedupe, heq⟩ := recordVote_eq P c variant
  refine ⟨by rw [heq], ?_⟩
  unfold recordVote
  simp only
  split
  · exact .inl rfl
  · split
    · exact .inl rfl
    · rename_i blockA hget
      split_ifs with he
      · exact .inl rfl
      · exact .inr ⟨blockA, hget, he, rfl⟩

/-- A vote that is received is reported as `recordVote` says. -/
theorem onVoteReceived_remarks (variant : VoteVariant) :
    (c.onVoteReceived P variant).1.proposalDedupe = c.proposalDedupe ∧
      (c.onVoteReceived P variant).2.filter Action.isEvidence = (c.recordVote P variant).2.1 := by
  obtain ⟨hdedupe, hreport⟩ := recordVote_remarks P c variant
  have hself : (c.recordVote P variant).2.1.filter Action.isEvidence =
      (c.recordVote P variant).2.1 := by
    rcases hreport with hnone | ⟨blockA, -, -, hone⟩
    · rw [hnone]
      rfl
    · rw [hone]
      rfl
  unfold onVoteReceived
  rcases hr : c.recordVote P variant with ⟨c', actions, formed⟩
  rw [hr] at hdedupe hself
  cases formed with
  | none => exact ⟨hdedupe, hself⟩
  | some qc =>
    have hadopt : (c'.adoptFormed qc).1.proposalDedupe = c'.proposalDedupe ∧
        (c'.adoptFormed qc).2.filter Action.isEvidence = [] := by
      unfold adoptFormed
      split_ifs <;> exact ⟨rfl, rfl⟩
    have hpropose := filter_isEvidence_of_silent
      (silent_tryProposeAsLeader (c'.adoptFormed qc).1
        (addU64 variant.signed.value.payload.view 1))
    refine ⟨hadopt.1.trans hdedupe, ?_⟩
    simp only [List.filter_append, hadopt.2, hpropose, List.append_nil]
    exact hself

/-- A proposal is reported when its leader has another one in its view. -/
theorem checkProposalDedupe_remarks (view : ℕ) (leader : ValidatorId) (blockHash : BlockHash) :
    (∀ k h, (c.checkProposalDedupe view leader blockHash).1.proposalDedupe.get? k = some h →
      k = (view, leader) ∧ h = blockHash ∨ c.proposalDedupe.get? k = some h) ∧
      ((c.checkProposalDedupe view leader blockHash).2 = [] ∨ ∃ blockA,
        c.proposalDedupe.get? (view, leader) = some blockA ∧ blockA ≠ blockHash ∧
          (c.checkProposalDedupe view leader blockHash).2 =
            [.proposalEquivocationEvidence leader view blockA blockHash]) := by
  unfold checkProposalDedupe
  cases hget : c.proposalDedupe.get? (view, leader) with
  | none =>
    refine ⟨fun k h hk => ?_, .inl rfl⟩
    change Table.get? (c.proposalDedupe.insert (view, leader) blockHash) k = some h at hk
    rw [Table.get?_insert] at hk
    split_ifs at hk with he
    · exact .inl ⟨he, (Option.some.inj hk).symm⟩
    · exact .inr hk
  | some blockA =>
    simp only
    split_ifs with he
    · exact ⟨fun k h hk => .inr hk, .inl rfl⟩
    · exact ⟨fun k h hk => .inr hk, .inr ⟨blockA, rfl, he, rfl⟩⟩

/-! ### One step -/

variable (order : IterOrder) (e : Event)

/-- A vote is in the dedupe table since it was received, unless a view above it was entered. -/
theorem voteDedupe_step (view : ℕ) (id : ValidatorId) {h : BlockHash}
    (hget : (c.step P order e).1.voteDedupe.get? (view, id) = some h) :
    e.voteKey? = some (view, id, h) ∨
      c.voteDedupe.get? (view, id) = some h ∧ ∀ v, e = .pacemakerAdvance v → v ≤ view := by
  rw [(sameVotes_step P c order e).voteDedupe] at hget
  cases e with
  | voteReceived variant =>
    rcases recordVote_cases P c variant with ⟨-, i, hrec⟩ | ⟨-, hc, -⟩
    · change (c.recordVote P variant).1.voteDedupe.get? (view, id) = some h at hget
      rw [hrec.dedupe] at hget
      split_ifs at hget with hk
      · obtain ⟨rfl, rfl⟩ := Prod.mk.inj hk
        obtain rfl := Option.some.inj hget
        exact .inl rfl
      · exact .inr ⟨hget, fun v he => by cases he⟩
    · change (c.recordVote P variant).1.voteDedupe.get? (view, id) = some h at hget
      rw [hc] at hget
      exact .inr ⟨hget, fun v he => by cases he⟩
  | pacemakerAdvance v =>
    change (c.voteDedupe.retain fun k _ => v ≤ k.1).get? (view, id) = some h at hget
    obtain ⟨hbefore, hle⟩ := (Table.get?_retain_eq_some _ _ _ _).mp hget
    refine .inr ⟨hbefore, ?_⟩
    rintro v' ⟨⟩
    exact of_decide_eq_true hle
  | proposalReceived _ => exact .inr ⟨hget, fun v he => by cases he⟩
  | newViewReceived _ => exact .inr ⟨hget, fun v he => by cases he⟩

theorem proposalDedupe_step (view : ℕ) (id : ValidatorId) {h : BlockHash}
    (hget : (c.step P order e).1.proposalDedupe.get? (view, id) = some h) :
    e.proposalKey? P = some (view, id, h) ∨
      c.proposalDedupe.get? (view, id) = some h ∧ ∀ v, e = .pacemakerAdvance v → v ≤ view := by
  cases e with
  | voteReceived variant =>
    change (c.onVoteReceived P variant).1.proposalDedupe.get? (view, id) = some h at hget
    rw [(onVoteReceived_remarks P c variant).1] at hget
    exact .inr ⟨hget, fun v he => by cases he⟩
  | pacemakerAdvance v =>
    have hframe := (unremarked_onPacemakerAdvance P c order v).proposalDedupe
    change (c.onPacemakerAdvance P order v).1.proposalDedupe.get? (view, id) = some h at hget
    rw [hframe] at hget
    change (c.proposalDedupe.retain fun k _ => v ≤ k.1).get? (view, id) = some h at hget
    obtain ⟨hbefore, hle⟩ := (Table.get?_retain_eq_some _ _ _ _).mp hget
    refine .inr ⟨hbefore, ?_⟩
    rintro v' ⟨⟩
    exact of_decide_eq_true hle
  | proposalReceived verified =>
    have hcheck := checkProposalDedupe_remarks c verified.value.payload.block.header.view
      verified.signerValidatorId (verified.value.payload.block.hash P)
    have haccept := unremarked_onProposalReceived P
      (c.checkProposalDedupe verified.value.payload.block.header.view verified.signerValidatorId
        (verified.value.payload.block.hash P)).1 verified.value
    have hnow := congrArg (fun t : Table (ℕ × ValidatorId) BlockHash => t.get? (view, id))
      haccept.proposalDedupe
    rcases hcheck.1 _ _ (hnow.symm.trans hget) with ⟨hk, rfl⟩ | hbefore
    · obtain ⟨rfl, rfl⟩ := Prod.mk.inj hk
      exact .inl rfl
    · exact .inr ⟨hbefore, fun v he => by cases he⟩
  | newViewReceived verified =>
    change (c.onNewViewReceived verified.value).1.proposalDedupe.get? (view, id) = some h at hget
    rw [(unremarked_onNewViewReceived c verified.value).proposalDedupe] at hget
    exact .inr ⟨hget, fun v he => by cases he⟩

/-- What a step reports, if anything. -/
def remarks : Event → List Action
  | .voteReceived variant => (c.recordVote P variant).2.1
  | .proposalReceived verified =>
    (c.checkProposalDedupe verified.value.payload.block.header.view verified.signerValidatorId
      (verified.value.payload.block.hash P)).2
  | _ => []

theorem filter_isEvidence_step :
    (c.step P order e).2.filter Action.isEvidence = c.remarks P e := by
  cases e with
  | voteReceived variant => exact (onVoteReceived_remarks P c variant).2
  | proposalReceived verified =>
    have hcheck := (checkProposalDedupe_remarks c verified.value.payload.block.header.view
      verified.signerValidatorId (verified.value.payload.block.hash P)).2
    have haccept := unremarked_onProposalReceived P
      (c.checkProposalDedupe verified.value.payload.block.header.view verified.signerValidatorId
        (verified.value.payload.block.hash P)).1 verified.value
    have hstep : (c.step P order (.proposalReceived verified)).2 =
        c.remarks P (.proposalReceived verified) ++ (onProposalReceived P
          (c.checkProposalDedupe verified.value.payload.block.header.view
            verified.signerValidatorId (verified.value.payload.block.hash P)).1
              verified.value).2 := rfl
    rw [hstep, List.filter_append, filter_isEvidence_of_silent haccept.silent, List.append_nil,
      remarks]
    rcases hcheck with hnone | ⟨blockA, -, -, hone⟩
    · rw [hnone]
      rfl
    · rw [hone]
      rfl
  | newViewReceived verified =>
    exact filter_isEvidence_of_silent (unremarked_onNewViewReceived c verified.value).silent
  | pacemakerAdvance v =>
    exact filter_isEvidence_of_silent (unremarked_onPacemakerAdvance P c order v).silent

/-- What is reported is the vote or the proposal just received, against one that is noted. -/
theorem remarks_cases : c.remarks P e = [] ∨
    (∃ voter view blockA blockB, c.remarks P e = [.equivocationEvidence voter view blockA blockB] ∧
        e.voteKey? = some (view, voter, blockB) ∧ blockA ≠ blockB ∧
          c.voteDedupe.get? (view, voter) = some blockA) ∨
      ∃ leader view blockA blockB,
        c.remarks P e = [.proposalEquivocationEvidence leader view blockA blockB] ∧
        e.proposalKey? P = some (view, leader, blockB) ∧ blockA ≠ blockB ∧
          c.proposalDedupe.get? (view, leader) = some blockA := by
  cases e with
  | voteReceived variant =>
    rcases (recordVote_remarks P c variant).2 with hnone | ⟨blockA, hget, hne, hone⟩
    · exact .inl hnone
    · exact .inr (.inl ⟨_, _, blockA, _, hone, rfl, hne, hget⟩)
  | proposalReceived verified =>
    rcases (checkProposalDedupe_remarks c verified.value.payload.block.header.view
      verified.signerValidatorId (verified.value.payload.block.hash P)).2 with
      hnone | ⟨blockA, hget, hne, hone⟩
    · exact .inl hnone
    · exact .inr (.inr ⟨_, _, blockA, _, hone, rfl, hne, hget⟩)
  | newViewReceived _ => exact .inl rfl
  | pacemakerAdvance _ => exact .inl rfl

end

end HotStuffCore

end Boule
