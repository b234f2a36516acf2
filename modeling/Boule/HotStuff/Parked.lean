import Boule.HotStuff.Unevicted

/-! What is parked, in every run. -/
namespace Boule

namespace HotStuffCore

/-- Parked proposals are filed under the hashes of their blocks. -/
def ParkedByHash (P : Primitives) (c : HotStuffCore) : Prop :=
  ∀ k signed, c.parkedProposals.get? k = some signed → signed.payload.block.hash P = k

variable {P : Primitives} {c c' : HotStuffCore} {k k' : BlockHash}
  {signed signed' : Signed Proposal}

theorem ParkedByHash.of_parked (h : c.ParkedByHash P)
    (hsub : ∀ {k signed}, c'.parkedProposals.get? k = some signed →
      c.parkedProposals.get? k = some signed) : c'.ParkedByHash P :=
  fun k signed hk => h k signed (hsub hk)

theorem parked_insertParked (hk : (c.insertParked P signed).parkedProposals.get? k = some signed') :
    (k = signed.payload.block.hash P ∧ signed' = signed) ∨
      c.parkedProposals.get? k = some signed' := by
  unfold insertParked at hk
  simp only at hk
  rw [Table.get?_insert] at hk
  split_ifs at hk with he hold
  · exact .inl ⟨he, (Option.some.inj hk).symm⟩
  · exact .inr hk
  · exact .inr ((cacheOnly_evictParkedToFitOne c).parked hk)

theorem parked_onProposalReceived
    (hk : (c.onProposalReceived P signed).1.parkedProposals.get? k = some signed') :
    (k = signed.payload.block.hash P ∧ signed' = signed) ∨
      c.parkedProposals.get? k = some signed' := by
  cases hp : c.state.pendingBlocks.containsKey signed.payload.block.header.parentHash with
  | false =>
    rw [onProposalReceived_of_unknown hp] at hk
    exact parked_insertParked ((quiet_tryEmitBlockSyncRetry _ _ _ _ _).1.parked hk)
  | true =>
    rw [onProposalReceived_of_known hp] at hk
    exact .inr hk

/-- A proposal that is parked again is parked where it was. -/
theorem parked_resumeParked (hkeys : c.ParkedByHash P)
    (hk : (c.resumeParked P k').1.parkedProposals.get? k = some signed') :
    c.parkedProposals.get? k = some signed' := by
  unfold resumeParked at hk
  cases hget : c.parkedProposals.get? k' with
  | none =>
    rw [hget] at hk
    exact hk
  | some signed =>
    rw [hget] at hk
    rcases parked_onProposalReceived hk with ⟨he, rfl⟩ | hold
    · rw [he, hkeys k' signed' hget]
      exact hget
    · exact Table.get?_of_erase hold

theorem ParkedByHash.onProposalReceived (h : c.ParkedByHash P) (signed : Signed Proposal) :
    (c.onProposalReceived P signed).1.ParkedByHash P := by
  intro k signed' hk
  rcases parked_onProposalReceived hk with ⟨rfl, rfl⟩ | hold
  · rfl
  · exact h k signed' hold

theorem ParkedByHash.resumeParked (h : c.ParkedByHash P) (k : BlockHash) :
    (c.resumeParked P k).1.ParkedByHash P :=
  h.of_parked (parked_resumeParked h)

theorem ParkedByHash.replay (h : c.ParkedByHash P) (ks : List BlockHash) :
    (forHashes (HotStuffCore.resumeParked P) c ks).1.ParkedByHash P := by
  induction ks generalizing c with
  | nil => exact h
  | cons k ks ih => exact ih (h.resumeParked k)

theorem ParkedByHash.onPacemakerAdvance (h : c.ParkedByHash P) (order : IterOrder) (v : ℕ) :
    (c.onPacemakerAdvance P order v).1.ParkedByHash P := by
  have hentered : (c.enterView v).ParkedByHash P := h
  have hreplayed := hentered.replay (order.apply (c.enterView v).readyParked)
  exact hreplayed.of_parked (quiet_forHashes quiet_runBlockSyncRetryForParent _ _).1.parked

theorem parkedProposals_onVoteReceived (P : Primitives) (c : HotStuffCore)
    (variant : VoteVariant) :
    (c.onVoteReceived P variant).1.parkedProposals = c.parkedProposals := by
  have hrecord := (recordVote_frame P c variant).1.parkedProposals
  unfold HotStuffCore.onVoteReceived
  rcases hr : c.recordVote P variant with ⟨c', actions, formed⟩
  rw [hr] at hrecord
  cases formed with
  | none => exact hrecord
  | some qc => exact (adoptFormed_frame c' qc).2.1.trans hrecord

theorem parked_onNewViewReceived (signed' : Signed NewView)
    (hk : (c.onNewViewReceived signed').1.parkedProposals.get? k = some signed) :
    c.parkedProposals.get? k = some signed := by
  unfold HotStuffCore.onNewViewReceived at hk
  simp only at hk
  split_ifs at hk
  · exact hk
  · exact hk
  · exact (quiet_tryEmitBlockSyncRetry (c.setHighQc signed'.payload.highQc) _ _ _ _).1.parked hk

theorem ParkedByHash.step (h : c.ParkedByHash P) (order : IterOrder) (e : Event) :
    (c.step P order e).1.ParkedByHash P := by
  cases e with
  | proposalReceived verified =>
    have hdedupe := (quiet_checkProposalDedupe c verified.value.payload.block.header.view
      verified.signerValidatorId (verified.value.payload.block.hash P)).1
    exact (h.of_parked hdedupe.parked).onProposalReceived verified.value
  | voteReceived variant =>
    have hsame := parkedProposals_onVoteReceived P c variant
    exact h.of_parked fun hk => hsame ▸ hk
  | newViewReceived verified => exact h.of_parked (parked_onNewViewReceived verified.value)
  | pacemakerAdvance v => exact h.onPacemakerAdvance order v

theorem ParkedByHash.apply (h : c.ParkedByHash P) (input : CoreInput) :
    (c.apply P input).ParkedByHash P := by
  cases input with
  | event order e => exact h.step order e
  | insertPendingBlock block => exact h
  | adoptSnapshot block commitQc view => exact h
  | setHighQc qc => exact h
  | insertValidatorBoundary vEff set =>
    unfold HotStuffCore.apply
    simp only
    cases hset : c.insertValidatorBoundary vEff set with
    | ok c' =>
      obtain ⟨history, -, heq⟩ := bind_eq_ok.mp hset
      obtain rfl := Except.ok.inj heq
      exact h
    | error e => exact h
  | blockSyncRetryTick => exact h.of_parked (quiet_stepBlockSyncRetryTick c).1.parked
  | proposalBuilt view block highQc => exact h

/-- In every run, parked proposals are filed under the hashes of their blocks. -/
theorem parkedByHash_run (P : Primitives) (selfId : NodeId) (state : HotStuffState)
    (limits : CacheLimits) (inputs : List CoreInput) :
    (run (HotStuffCore.apply P) (.withLimits selfId state limits) inputs).ParkedByHash P := by
  have hstart : (withLimits selfId state limits).ParkedByHash P := fun k signed hk => by
    simp [withLimits] at hk
  generalize withLimits selfId state limits = c at hstart
  induction inputs generalizing c with
  | nil => exact hstart
  | cons input inputs ih => exact ih _ (hstart.apply input)

end HotStuffCore

end Boule
