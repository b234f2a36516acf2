import Boule.HotStuff.Headers
import Boule.HotStuff.Records
import Boule.Lib.Run

/-! The high certificate. A vote that completes a quorum and a new view raise it to what they
bring; a proposal raises it only if the replica also votes. -/
namespace Boule

namespace HotStuffState

/-- The high certificate is of the view or of a later one. -/
def HighFrom (s : HotStuffState) (view : ℕ) : Prop := ∃ qc ∈ s.highQc, view ≤ qc.view

instance (s : HotStuffState) : DecidablePred s.HighFrom := fun view =>
  decidable_of_iff (s.highQc.any (fun qc => view ≤ qc.view) = true)
    (by simp [HighFrom, Option.any_eq_true])

theorem highFrom_of_not_shouldUpdate {s : HotStuffState} {qc : QuorumCertificate}
    (h : shouldUpdateHighQc qc s = false) : s.HighFrom qc.view := by
  unfold shouldUpdateHighQc at h
  cases hs : s.highQc with
  | none => simp [hs] at h
  | some existing =>
    simp only [hs, decide_eq_false_iff_not, not_lt] at h
    exact ⟨existing, hs, h⟩

theorem HighFrom.view_lt {s : HotStuffState} {qc : QuorumCertificate} {view : ℕ}
    (h : s.HighFrom view) (hu : shouldUpdateHighQc qc s = true) : view < qc.view := by
  obtain ⟨existing, hs, hle⟩ := h
  unfold shouldUpdateHighQc at hu
  rw [hs] at hu
  exact Nat.lt_of_le_of_lt hle (of_decide_eq_true hu)

end HotStuffState

open HotStuffState

namespace AcceptCall

/-- The replica votes for the proposal, and its certificate is of the view or of a later one. -/
def Raises (P : Primitives) (call : AcceptCall) (view : ℕ) : Prop :=
  call.1.votesFor P call.2 = true ∧ view ≤ call.2.justify.view

instance (P : Primitives) (call : AcceptCall) : DecidablePred (call.Raises P) := fun _ =>
  inferInstanceAs (Decidable (_ ∧ _))

theorem highFrom_next (P : Primitives) (call : AcceptCall) (view : ℕ) :
    (call.next P).HighFrom view ↔ call.1.HighFrom view ∨ call.Raises P view := by
  have hnext : (call.next P).highQc = if call.1.votesFor P call.2 ∧
      shouldUpdateHighQc call.2.justify call.1 then some call.2.justify else call.1.highQc :=
    acceptProposal_highQc P call.1 call.2
  unfold HighFrom Raises
  rw [hnext]
  cases hv : call.1.votesFor P call.2 with
  | false => simp
  | true =>
    cases hu : shouldUpdateHighQc call.2.justify call.1 with
    | true =>
      have hlower : call.1.HighFrom view → view ≤ call.2.justify.view := fun h =>
        Nat.le_of_lt (h.view_lt hu)
      simp only [true_and, if_true, Option.mem_def, Option.some.injEq, exists_eq_left']
      exact ⟨.inr, Or.rec hlower id⟩
    | false =>
      have hhigher : view ≤ call.2.justify.view → call.1.HighFrom view := fun hle => by
        obtain ⟨qc, hqc, hjustify⟩ := highFrom_of_not_shouldUpdate hu
        exact ⟨qc, hqc, hle.trans hjustify⟩
      simp only [true_and, Bool.false_eq_true, and_false, if_false]
      exact ⟨.inl, Or.rec id hhigher⟩

end AcceptCall

namespace HotStuffCore

/-- The certificates that a step processes: those of the proposals with a known parent, of a new
view, and the one that a vote completes. -/
def processedQcs (P : Primitives) (c : HotStuffCore) (input : IterOrder × Event) :
    List QuorumCertificate :=
  match input.2 with
  | .voteReceived variant => (c.recordVote P variant).2.2.toList
  | .newViewReceived verified => [verified.value.payload.highQc]
  | event => (c.stepCalls P input.1 event).map fun call => call.2.justify

/-- After the step the high certificate is as late as all that the step has processed. -/
def Freshest (P : Primitives) (c : HotStuffCore) (input : IterOrder × Event) : Prop :=
  ∀ qc ∈ c.processedQcs P input, (c.next P input).state.HighFrom qc.view

/-- The step votes for a proposal whose certificate is as late as those of all the proposals it
accepts, unless the high certificate is that late before. -/
def VotesForFreshest (P : Primitives) (c : HotStuffCore) (input : IterOrder × Event) : Prop :=
  ∀ call ∈ c.stepCalls P input.1 input.2, c.state.HighFrom call.2.justify.view ∨
    ∃ voted ∈ c.stepCalls P input.1 input.2, voted.Raises P call.2.justify.view

instance (P : Primitives) (c : HotStuffCore) : DecidablePred (c.Freshest P) := fun input =>
  inferInstanceAs (Decidable (∀ qc ∈ c.processedQcs P input, _))

instance (P : Primitives) (c : HotStuffCore) : DecidablePred (c.VotesForFreshest P) := fun input =>
  inferInstanceAs (Decidable (∀ call ∈ c.stepCalls P input.1 input.2, _ ∨ ∃ voted ∈ _, _))

variable {P : Primitives} {c : HotStuffCore} {view : ℕ}

theorem highFrom_onProposalReceived (signed : Signed Proposal) :
    (c.onProposalReceived P signed).1.state.HighFrom view ↔
      c.state.HighFrom view ∨ ∃ call ∈ c.proposalCalls signed, call.Raises P view := by
  unfold proposalCalls
  cases hp : c.state.pendingBlocks.containsKey signed.payload.block.header.parentHash with
  | false =>
    have hstate : (c.parkProposal P signed).1.state = c.state :=
      (quiet_tryEmitBlockSyncRetry _ _ _ _ _).1.state.trans (insertParked_state P c signed)
    rw [onProposalReceived_of_unknown hp, hstate]
    simp
  | true =>
    rw [onProposalReceived_of_known hp, if_pos rfl]
    simp only [List.mem_singleton, exists_eq_left]
    exact AcceptCall.highFrom_next P (c.state, signed.payload) view

theorem highFrom_resumeParked (hash : BlockHash) :
    (c.resumeParked P hash).1.state.HighFrom view ↔ c.state.HighFrom view ∨
      ∃ call ∈ (c.parkedProposals.get? hash).elim [] fun signed => c.proposalCalls signed,
        call.Raises P view := by
  unfold resumeParked
  cases c.parkedProposals.get? hash with
  | none => simp
  | some signed => exact highFrom_onProposalReceived signed

theorem highFrom_resumeCalls (hashes : List BlockHash) :
    (forHashes (resumeParked P) c hashes).1.state.HighFrom view ↔
      c.state.HighFrom view ∨ ∃ call ∈ resumeCalls P c hashes, call.Raises P view := by
  induction hashes generalizing c with
  | nil => simp [forHashes, resumeCalls]
  | cons hash hashes ih =>
    have hrest := ih (c := (c.resumeParked P hash).1)
    have hcons : (forHashes (resumeParked P) c (hash :: hashes)).1 =
        (forHashes (resumeParked P) (c.resumeParked P hash).1 hashes).1 := rfl
    rw [hcons, hrest, highFrom_resumeParked, resumeCalls]
    simp only [List.mem_append, or_and_right, exists_or, or_assoc]

theorem highFrom_onPacemakerAdvance (order : IterOrder) (v : ℕ) :
    (c.onPacemakerAdvance P order v).1.state.HighFrom view ↔ c.state.HighFrom view ∨
      ∃ call ∈ c.stepCalls P order (.pacemakerAdvance v), call.Raises P view := by
  have hentered : (c.enterView v).state.HighFrom view ↔ c.state.HighFrom view := Iff.rfl
  rw [stepCalls, ← hentered, ← highFrom_resumeCalls]
  simp only [onPacemakerAdvance]
  rw [(quiet_forHashes quiet_runBlockSyncRetryForParent _ _).1.state]

/-- Accepted proposals raise the high certificate by the votes alone. -/
theorem highFrom_next_of_calls {input : IterOrder × Event}
    (hcalls : ∃ call, call ∈ c.stepCalls P input.1 input.2) :
    (c.next P input).state.HighFrom view ↔ c.state.HighFrom view ∨
      ∃ call ∈ c.stepCalls P input.1 input.2, call.Raises P view := by
  obtain ⟨order, event⟩ := input
  cases event with
  | proposalReceived verified =>
    obtain ⟨hq, -⟩ := quiet_checkProposalDedupe c verified.value.payload.block.header.view
      verified.signerValidatorId (verified.value.payload.block.hash P)
    simp only [next, step, stepCalls]
    rw [← proposalCalls_congr hq.state, ← hq.state]
    exact highFrom_onProposalReceived verified.value
  | pacemakerAdvance v => exact highFrom_onPacemakerAdvance order v
  | voteReceived variant =>
    obtain ⟨call, hcall⟩ := hcalls
    exact absurd hcall List.not_mem_nil
  | newViewReceived verified =>
    obtain ⟨call, hcall⟩ := hcalls
    exact absurd hcall List.not_mem_nil

/-- The certificate that a vote completes is adopted unless the high one is as late. -/
theorem highFrom_onVoteReceived {variant : VoteVariant} {formed : QuorumCertificate}
    (h : (c.recordVote P variant).2.2 = some formed) :
    (c.onVoteReceived P variant).1.state.HighFrom formed.view := by
  unfold onVoteReceived
  rcases hr : c.recordVote P variant with ⟨c', actions, formed'⟩
  rw [hr] at h
  obtain rfl : formed' = some formed := h
  simp only [adoptFormed]
  split_ifs with hupdate
  · exact ⟨formed, rfl, Nat.le_refl _⟩
  · exact highFrom_of_not_shouldUpdate (Bool.not_eq_true _ ▸ hupdate)

theorem highFrom_onNewViewReceived (signed : Signed NewView) :
    (c.onNewViewReceived signed).1.state.HighFrom signed.payload.highQc.view := by
  unfold onNewViewReceived
  simp only
  split_ifs with hupdate hknown
  · exact highFrom_of_not_shouldUpdate (by simpa using hupdate)
  · exact ⟨signed.payload.highQc, rfl, Nat.le_refl _⟩
  · obtain ⟨hquiet, -⟩ := quiet_tryEmitBlockSyncRetry (c.setHighQc signed.payload.highQc)
      signed.payload.highQc.blockHash signed.signer 0 .unknownHighQcOnNewView
    rw [hquiet.state]
    exact ⟨signed.payload.highQc, rfl, Nat.le_refl _⟩

theorem freshest_iff (input : IterOrder × Event) :
    c.Freshest P input ↔ c.VotesForFreshest P input := by
  obtain ⟨order, event⟩ := input
  have haccepted : (∀ qc ∈ (c.stepCalls P order event).map fun call => call.2.justify,
      (c.next P (order, event)).state.HighFrom qc.view) ↔ c.VotesForFreshest P (order, event) := by
    rw [List.forall_mem_map]
    exact forall₂_congr fun call hcall => highFrom_next_of_calls ⟨call, hcall⟩
  cases event with
  | proposalReceived verified => exact haccepted
  | pacemakerAdvance v => exact haccepted
  | voteReceived variant =>
    have hfresh : c.Freshest P (order, .voteReceived variant) := fun qc hqc =>
      highFrom_onVoteReceived (Option.mem_toList.mp hqc)
    exact iff_of_true hfresh fun call hcall => absurd hcall List.not_mem_nil
  | newViewReceived verified =>
    have hfresh : c.Freshest P (order, .newViewReceived verified) := fun qc hqc =>
      List.mem_singleton.mp hqc ▸ highFrom_onNewViewReceived verified.value
    exact iff_of_true hfresh fun call hcall => absurd hcall List.not_mem_nil

theorem highFrom_next_of_highFrom (input : IterOrder × Event) (h : c.state.HighFrom view) :
    (c.next P input).state.HighFrom view := by
  obtain ⟨qc, hqc, hle⟩ := h
  obtain ⟨qc', hqc', hle'⟩ := (emits_step P input.1 c input.2).highQc_le qc hqc
  exact ⟨qc', hqc', hle.trans hle'⟩

end HotStuffCore

/-- The high certificate never gets older, and it is the freshest that was processed exactly if
every step votes for the freshest of the proposals that it accepts. -/
theorem highQc_freshest_iff (P : Primitives) (c : HotStuffCore)
    (inputs : List (IterOrder × Event)) :
    Along (HotStuffCore.next P) (fun c input => ∀ view, c.state.HighFrom view →
        (c.next P input).state.HighFrom view) c inputs ∧
      (Along (HotStuffCore.next P) (HotStuffCore.Freshest P) c inputs ↔
        Along (HotStuffCore.next P) (HotStuffCore.VotesForFreshest P) c inputs) := by
  constructor
  · induction inputs generalizing c with
    | nil => trivial
    | cons input inputs ih =>
      exact ⟨fun _ => HotStuffCore.highFrom_next_of_highFrom input, ih (c.next P input)⟩
  · exact Along.congr (fun _ => HotStuffCore.freshest_iff) c inputs

namespace Sample

/-- A block of view 4 on the block of view 1, from a leader that has not seen the one between. -/
def past₂ : Proposal := propose d₁.block 4 [0, 1, 3]

/-- The proposal of view 3 arrives after the vote of view 4 and brings a later certificate, which
the replica leaves aside. -/
theorem late_proposal_not_freshest :
    ¬ Along (HotStuffCore.next primitives) (HotStuffCore.Freshest primitives)
      (.new 1 (.new primitives validators genesis))
      ([d₁, d₂, past₂, d₃].map fun p => (order, received p)) := by
  decide

end Sample

end Boule
