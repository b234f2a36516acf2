import Boule.HotStuff.Calls

/-! What a step does to the vote buckets, the dedupe table and the validator history. -/
namespace Boule.HotStuffCore

/-- Equal in the vote tables and the validator history. -/
structure SameVotes (c c' : HotStuffCore) : Prop where
  voteBucket : c'.voteBucket = c.voteBucket
  voteDedupe : c'.voteDedupe = c.voteDedupe
  validatorHistory : c'.state.validatorHistory = c.state.validatorHistory

theorem SameVotes.refl (c : HotStuffCore) : SameVotes c c := ⟨rfl, rfl, rfl⟩

theorem SameVotes.trans {c₁ c₂ c₃ : HotStuffCore} (h : SameVotes c₁ c₂) (h' : SameVotes c₂ c₃) :
    SameVotes c₁ c₃ where
  voteBucket := h'.voteBucket.trans h.voteBucket
  voteDedupe := h'.voteDedupe.trans h.voteDedupe
  validatorHistory := h'.validatorHistory.trans h.validatorHistory

theorem CacheOnly.sameVotes {c c' : HotStuffCore} (h : CacheOnly c c') : SameVotes c c' :=
  ⟨h.voteBucket, h.voteDedupe, congrArg HotStuffState.validatorHistory h.state⟩

section
variable (P : Primitives) (c : HotStuffCore)

theorem sameVotes_insertParked (signed : Signed Proposal) :
    SameVotes c (c.insertParked P signed) := by
  obtain ⟨parked, hparked⟩ := insertParked_eq P c signed
  rw [hparked]
  exact ⟨rfl, rfl, rfl⟩

theorem sameVotes_onProposalReceived (signed : Signed Proposal) :
    SameVotes c (c.onProposalReceived P signed).1 := by
  cases hp : c.state.pendingBlocks.containsKey signed.payload.block.header.parentHash with
  | false =>
    rw [onProposalReceived_of_unknown hp]
    exact (sameVotes_insertParked P c signed).trans
      (quiet_tryEmitBlockSyncRetry (c.insertParked P signed) _ _ _ _).1.sameVotes
  | true =>
    rw [onProposalReceived_of_known hp]
    exact ⟨rfl, rfl, (c.state.sameConfig_acceptProposal P signed.payload).validatorHistory⟩

theorem sameVotes_resumeParked (h : BlockHash) : SameVotes c (c.resumeParked P h).1 := by
  unfold resumeParked
  cases c.parkedProposals.get? h with
  | none => exact .refl c
  | some signed =>
    have hrest := sameVotes_onProposalReceived P { c with
      parkedProposals := c.parkedProposals.erase h
      blockSyncInflight := c.blockSyncInflight.erase signed.payload.block.header.parentHash } signed
    exact ⟨hrest.voteBucket, hrest.voteDedupe, hrest.validatorHistory⟩

theorem sameVotes_forHashes_resumeParked (hs : List BlockHash) :
    SameVotes c (forHashes (resumeParked P) c hs).1 := by
  induction hs generalizing c with
  | nil => exact .refl c
  | cons h hs ih => exact (sameVotes_resumeParked P c h).trans (ih (c.resumeParked P h).1)

theorem sameVotes_onNewViewReceived (signed : Signed NewView) :
    SameVotes c (c.onNewViewReceived signed).1 := by
  unfold onNewViewReceived
  simp only
  split_ifs
  · exact .refl c
  · exact ⟨rfl, rfl, rfl⟩
  · have hq := (quiet_tryEmitBlockSyncRetry (c.setHighQc signed.payload.highQc)
      signed.payload.highQc.blockHash signed.signer 0 .unknownHighQcOnNewView).1.sameVotes
    exact ⟨hq.voteBucket, hq.voteDedupe, hq.validatorHistory⟩

theorem sameVotes_onPacemakerAdvance (order : IterOrder) (v : ℕ) :
    SameVotes (c.evictVoteBucketsBelow v) (c.onPacemakerAdvance P order v).1 := by
  have henter : SameVotes (c.evictVoteBucketsBelow v) (c.enterView v) := ⟨rfl, rfl, rfl⟩
  have hresume := sameVotes_forHashes_resumeParked P (c.enterView v)
    (order.apply (c.enterView v).readyParked)
  exact henter.trans (hresume.trans
    (quiet_forHashes quiet_runBlockSyncRetryForParent _ _).1.sameVotes)

theorem sameVotes_onVoteReceived (variant : VoteVariant) :
    SameVotes (c.recordVote P variant).1 (c.onVoteReceived P variant).1 := by
  unfold onVoteReceived
  rcases c.recordVote P variant with ⟨c', actions, formed⟩
  cases formed with
  | none => exact .refl c'
  | some qc =>
    simp only [adoptFormed]
    split_ifs <;> exact ⟨rfl, rfl, rfl⟩

/-- The core whose vote tables and history the step leaves behind. -/
def afterVotes : Event → HotStuffCore
  | .voteReceived variant => (c.recordVote P variant).1
  | .pacemakerAdvance v => c.evictVoteBucketsBelow v
  | .proposalReceived _ => c
  | .newViewReceived _ => c

/-- Only votes fill the buckets and only a view change clears them. -/
theorem sameVotes_step (order : IterOrder) (e : Event) :
    SameVotes (c.afterVotes P e) (c.step P order e).1 := by
  cases e with
  | proposalReceived verified =>
    exact (quiet_checkProposalDedupe c _ _ _).1.sameVotes.trans (sameVotes_onProposalReceived P _ _)
  | voteReceived variant => exact sameVotes_onVoteReceived P c variant
  | newViewReceived verified => exact sameVotes_onNewViewReceived c verified.value
  | pacemakerAdvance v => exact sameVotes_onPacemakerAdvance P c order v

/-- No event changes the validator history. -/
theorem validatorHistory_step (order : IterOrder) (e : Event) :
    (c.step P order e).1.state.validatorHistory = c.state.validatorHistory := by
  rw [(sameVotes_step P c order e).validatorHistory]
  cases e with
  | voteReceived variant =>
    exact congrArg HotStuffState.validatorHistory (recordVote_frame P c variant).1.state
  | _ => rfl

end

/-! ### One vote -/

/-- The certificate the vote is added to: the bucket's, or an empty one. -/
def bucketFor (c : HotStuffCore) (vote : Vote) : QuorumCertificate :=
  (c.voteBucket.get? (vote.view, vote.blockHash)).getD
    (.new vote.view vote.blockHash (c.state.validatorHistory.setAt vote.view).len)

/-- The vote passes the checks that stand before the bucket: the voter belongs to the set of
the view and no vote of its for another block is known. -/
def reaches (c : HotStuffCore) (vote : Vote) (id : ValidatorId) : Bool :=
  ((c.state.validatorHistory.setAt vote.view).indexOf id).isSome &&
    (c.voteDedupe.get? (vote.view, id)).all (· = vote.blockHash)

/-- The vote of validator `id`, whose index is `i`, was recorded and left `r`. -/
structure Recorded (P : Primitives) (c : HotStuffCore) (vote : Vote) (id : ValidatorId) (i : ℕ)
    (bls : BlsPartialSig) (r : HotStuffCore × List Action × Option QuorumCertificate) : Prop where
  index : (c.state.validatorHistory.setAt vote.view).indexOf id = some i
  dedupe_before : ∀ h ∈ c.voteDedupe.get? (vote.view, id), h = vote.blockHash
  dedupe : ∀ k, r.1.voteDedupe.get? k =
    if k = (vote.view, id) then some vote.blockHash else c.voteDedupe.get? k
  bucket : r.1.voteBucket.get? (vote.view, vote.blockHash) =
    some ((c.bucketFor vote).addBlsPartial P i bls)
  bucket_other : ∀ k qc, k ≠ (vote.view, vote.blockHash) → r.1.voteBucket.get? k = some qc →
    c.voteBucket.get? k = some qc
  formed : ∀ qc ∈ r.2.2, qc = (c.bucketFor vote).addBlsPartial P i bls ∧
    qc.hasQuorum (c.state.validatorHistory.setAt vote.view) = true

theorem get?_of_evictVoteBucketsToFitOne {c : HotStuffCore} {k : ℕ × BlockHash}
    {qc : QuorumCertificate} (h : c.evictVoteBucketsToFitOne.voteBucket.get? k = some qc) :
    c.voteBucket.get? k = some qc := by
  unfold evictVoteBucketsToFitOne at h
  split_ifs at h
  · exact h
  · split at h
    · exact h
    · exact Table.get?_of_erase h

theorem evictVoteBucketsToFitOne_voteDedupe (c : HotStuffCore) :
    c.evictVoteBucketsToFitOne.voteDedupe = c.voteDedupe := by
  unfold evictVoteBucketsToFitOne
  split_ifs
  · rfl
  · split <;> rfl

theorem formed_spec {qc : QuorumCertificate} {vs : ValidatorSet} {hadQuorum : Bool} :
    ∀ formed ∈ (if hadQuorum || !qc.hasQuorum vs then none else some qc),
      formed = qc ∧ formed.hasQuorum vs = true := by
  intro formed hf
  rw [Option.mem_def] at hf
  split_ifs at hf with hq
  simp only [Bool.or_eq_true, Bool.not_eq_true', not_or, Bool.not_eq_false] at hq
  obtain rfl := Option.some.inj hf
  exact ⟨rfl, hq.2⟩

/-- What is in the buckets after the vote is added, and the certificate it completes. -/
theorem addToBucket_spec (P : Primitives) (c : HotStuffCore) (vote : Vote) (i : ℕ)
    (bls : BlsPartialSig) {r : HotStuffCore × Option QuorumCertificate}
    (hr : c.addToBucket P vote (c.state.validatorHistory.setAt vote.view) i bls = r) :
    r.1.voteDedupe = c.voteDedupe ∧
      r.1.voteBucket.get? (vote.view, vote.blockHash) =
        some ((c.bucketFor vote).addBlsPartial P i bls) ∧
      (∀ k qc, k ≠ (vote.view, vote.blockHash) → r.1.voteBucket.get? k = some qc →
        c.voteBucket.get? k = some qc) ∧
      ∀ qc ∈ r.2, qc = (c.bucketFor vote).addBlsPartial P i bls ∧
        qc.hasQuorum (c.state.validatorHistory.setAt vote.view) = true := by
  subst hr
  cases hc : c.voteBucket.containsKey (vote.view, vote.blockHash) with
  | true =>
    simp only [addToBucket, hc, if_true]
    refine ⟨trivial, Table.get?_insert_self _ _ _, fun k qc hk h => ?_, formed_spec⟩
    rwa [Table.get?_insert_of_ne _ hk] at h
  | false =>
    have hnone := (Table.containsKey_eq_false_iff _ _).mp hc
    have hnone' :
        c.evictVoteBucketsToFitOne.voteBucket.get? (vote.view, vote.blockHash) = none := by
      by_contra hne
      obtain ⟨qc, hqc⟩ := Option.ne_none_iff_exists'.mp hne
      rw [get?_of_evictVoteBucketsToFitOne hqc] at hnone
      cases hnone
    have hfor : c.bucketFor vote =
        .new vote.view vote.blockHash (c.state.validatorHistory.setAt vote.view).len := by
      rw [bucketFor, hnone, Option.getD_none]
    simp only [addToBucket, hc, hnone', Bool.false_eq_true, if_false, Option.getD_none]
    rw [← hfor]
    refine ⟨evictVoteBucketsToFitOne_voteDedupe c, Table.get?_insert_self _ _ _,
      fun k qc hk h => ?_, formed_spec⟩
    rw [Table.get?_insert_of_ne _ hk] at h
    exact get?_of_evictVoteBucketsToFitOne h

theorem recorded_addToBucket (P : Primitives) {c d : HotStuffCore} {vote : Vote}
    {id : ValidatorId} {i : ℕ} (bls : BlsPartialSig)
    (hi : (c.state.validatorHistory.setAt vote.view).indexOf id = some i)
    (hbefore : ∀ h ∈ c.voteDedupe.get? (vote.view, id), h = vote.blockHash)
    (hbucket : d.voteBucket = c.voteBucket) (hstate : d.state = c.state)
    (hdedupe : ∀ k, d.voteDedupe.get? k =
      if k = (vote.view, id) then some vote.blockHash else c.voteDedupe.get? k)
    (actions : List Action) {r : HotStuffCore × Option QuorumCertificate}
    (hr : d.addToBucket P vote (c.state.validatorHistory.setAt vote.view) i bls = r) :
    Recorded P c vote id i bls (r.1, actions, r.2) := by
  have hfor : d.bucketFor vote = c.bucketFor vote := by
    unfold bucketFor
    rw [hbucket, hstate]
  obtain ⟨hd, hb, hother, hformed⟩ := addToBucket_spec P d vote i bls (hstate ▸ hr)
  rw [hfor] at hb hformed
  rw [hbucket] at hother
  rw [hstate] at hformed
  refine ⟨hi, hbefore, fun k => ?_, hb, hother, hformed⟩
  rw [← hdedupe]
  exact congrArg (Table.get? · k) hd

/-- A vote is recorded in its bucket and in the dedupe table, or ignored. -/
theorem recordVote_cases (P : Primitives) (c : HotStuffCore) (variant : VoteVariant) :
    (c.reaches variant.signed.value.payload variant.signed.signerValidatorId = true ∧
      ∃ i, Recorded P c variant.signed.value.payload variant.signed.signerValidatorId i
        variant.bls (c.recordVote P variant)) ∨
    (c.reaches variant.signed.value.payload variant.signed.signerValidatorId = false ∧
      (c.recordVote P variant).1 = c ∧ (c.recordVote P variant).2.2 = none) := by
  unfold recordVote reaches
  simp only
  generalize variant.signed.value.payload = vote
  generalize variant.signed.signerValidatorId = id
  cases hi : (c.state.validatorHistory.setAt vote.view).indexOf id with
  | none => exact .inr ⟨rfl, rfl, rfl⟩
  | some i =>
    cases hd : c.voteDedupe.get? (vote.view, id) with
    | none =>
      refine .inl ⟨rfl, i, recorded_addToBucket P (d := { c with
        voteDedupe := c.voteDedupe.insert (vote.view, id) vote.blockHash }) variant.bls hi
        (by simp [hd]) rfl rfl ?_ [] rfl⟩
      intro k
      exact Table.get?_insert _ _ _ _
    | some blockA =>
      simp only
      split_ifs with he
      · refine .inl ⟨by simp [he], i, recorded_addToBucket P (d := c) variant.bls hi ?_ rfl rfl ?_
          [] rfl⟩
        · rw [hd]
          rintro h ⟨⟩
          exact he
        · intro k
          split_ifs with hk
          · rw [hk, hd, he]
          · rfl
      · exact .inr ⟨by simp [he], rfl, rfl⟩

end Boule.HotStuffCore
