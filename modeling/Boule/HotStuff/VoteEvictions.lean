import Boule.HotStuff.Records
import Boule.HotStuff.VoteBuckets
import Boule.Lib.Gathered

/-! Votes that are thrown out with their bucket, and the quorums that are lost with them. -/
namespace Boule

/-- Validators of more than two thirds of the weight. -/
def ValidatorSet.Outweighs (vs : ValidatorSet) (ids : List ValidatorId) : Prop :=
  2 * vs.totalWeight < 3 * ∑ id ∈ ids.toFinset, (vs.weightFor id).getD 0

instance (vs : ValidatorSet) : DecidablePred vs.Outweighs := fun _ =>
  inferInstanceAs (Decidable (_ < _))

theorem ValidatorSet.Outweighs.append {vs : ValidatorSet} {ids : List ValidatorId}
    (h : vs.Outweighs ids) (ids' : List ValidatorId) : vs.Outweighs (ids ++ ids') := by
  have hsub : ids.toFinset ⊆ (ids ++ ids').toFinset := by
    rw [List.toFinset_append]
    exact Finset.subset_union_left
  have hle := Finset.sum_le_sum_of_subset (f := fun id => (vs.weightFor id).getD 0) hsub
  unfold ValidatorSet.Outweighs at h ⊢
  omega

/-! ### One vote -/

namespace HotStuffCore

/-- The bucket that a vote for a new bucket throws out, if it does. -/
def victimBucket (c : HotStuffCore) : Option (ℕ × BlockHash) :=
  c.voteBucket.victim c.limits.voteBucketCapacity fun k _ => toLex k

theorem victimBucket_congr {c d : HotStuffCore} (hbucket : d.voteBucket = c.voteBucket)
    (hlimits : d.limits = c.limits) : d.victimBucket = c.victimBucket := by
  unfold victimBucket
  rw [hbucket, hlimits]

theorem get?_evictVoteBucketsToFitOne (c : HotStuffCore) (k : ℕ × BlockHash) :
    c.evictVoteBucketsToFitOne.voteBucket.get? k =
      if c.victimBucket = some k then none else c.voteBucket.get? k := by
  unfold evictVoteBucketsToFitOne victimBucket Table.victim
  by_cases hsize : c.voteBucket.size < c.limits.voteBucketCapacity
  · simp [hsize]
  · simp only [hsize, if_false]
    cases hv : c.voteBucket.minBy fun k _ => toLex k with
    | none => simp
    | some victim =>
      obtain ⟨victimKey, qc⟩ := victim
      simp only [Option.map_some, Option.some.injEq]
      rw [Table.get?_erase]
      by_cases hk : k = victimKey
      · rw [if_pos hk, if_pos hk.symm]
      · rw [if_neg hk, if_neg (Ne.symm hk)]

section
variable (P : Primitives) (c : HotStuffCore) (vote : Vote) (vs : ValidatorSet) (i : ℕ)
  (bls : BlsPartialSig)

theorem get?_addToBucket_of_ne {k : ℕ × BlockHash} (hk : k ≠ (vote.view, vote.blockHash)) :
    (c.addToBucket P vote vs i bls).1.voteBucket.get? k =
      if c.voteBucket.containsKey (vote.view, vote.blockHash) = false ∧ c.victimBucket = some k
      then none else c.voteBucket.get? k := by
  unfold addToBucket
  simp only
  rw [Table.get?_insert_of_ne _ hk]
  cases hc : c.voteBucket.containsKey (vote.view, vote.blockHash) with
  | true => simp
  | false => simp [get?_evictVoteBucketsToFitOne]

theorem containsKey_addToBucket_self : (c.addToBucket P vote vs i bls).1.voteBucket.containsKey
    (vote.view, vote.blockHash) = true :=
  (Table.containsKey_iff _ _).mpr ⟨_, Table.get?_insert_self _ _ _⟩

theorem containsKey_addToBucket_of_ne {k : ℕ × BlockHash} (hk : k ≠ (vote.view, vote.blockHash)) :
    (c.addToBucket P vote vs i bls).1.voteBucket.containsKey k =
      if c.voteBucket.containsKey (vote.view, vote.blockHash) = false ∧ c.victimBucket = some k
      then false else c.voteBucket.containsKey k := by
  rw [Table.containsKey, c.get?_addToBucket_of_ne P vote vs i bls hk]
  split_ifs <;> rfl

/-- The certificate comes with the vote that completes the quorum of its bucket. -/
theorem addToBucket_formed : (c.addToBucket P vote
      (c.state.validatorHistory.setAt vote.view) i bls).2 =
    if (c.bucketFor vote).hasQuorum (c.state.validatorHistory.setAt vote.view) ||
      !((c.bucketFor vote).addBlsPartial P i bls).hasQuorum
        (c.state.validatorHistory.setAt vote.view)
    then none else some ((c.bucketFor vote).addBlsPartial P i bls) := by
  unfold addToBucket bucketFor
  simp only
  cases hc : c.voteBucket.containsKey (vote.view, vote.blockHash) with
  | true => simp
  | false =>
    have hnone := (Table.containsKey_eq_false_iff _ _).mp hc
    simp only [Bool.false_eq_true, if_false, get?_evictVoteBucketsToFitOne, hnone, ite_self]

end

/-- A vote that reaches the buckets is added to the one for its view and hash. -/
theorem recordVote_of_reaches (P : Primitives) {c : HotStuffCore} {variant : VoteVariant}
    (h : c.reaches variant.signed.value.payload variant.signed.signerValidatorId = true) :
    ∃ i, ∃ d : HotStuffCore, d.voteBucket = c.voteBucket ∧ d.limits = c.limits ∧ d.state = c.state ∧
      c.recordVote P variant =
        ((d.addToBucket P variant.signed.value.payload
            (d.state.validatorHistory.setAt variant.signed.value.payload.view) i variant.bls).1, [],
          (d.addToBucket P variant.signed.value.payload
            (d.state.validatorHistory.setAt variant.signed.value.payload.view) i
              variant.bls).2) := by
  unfold reaches at h
  unfold recordVote
  revert h
  simp only
  generalize variant.signed.value.payload = vote
  generalize variant.signed.signerValidatorId = id
  intro h
  cases hi : (c.state.validatorHistory.setAt vote.view).indexOf id with
  | none => simp [hi] at h
  | some i =>
    cases hd : c.voteDedupe.get? (vote.view, id) with
    | none => exact ⟨i, { c with
        voteDedupe := c.voteDedupe.insert (vote.view, id) vote.blockHash }, rfl, rfl, rfl, rfl⟩
    | some blockA =>
      have hsame : blockA = vote.blockHash := by simpa [hi, hd] using h
      simp only [hsame, if_true]
      exact ⟨i, c, rfl, rfl, rfl, rfl⟩

end HotStuffCore

/-! ### Runs -/

namespace Booth

/-- The event as a step of the booth. -/
def hear (P : Primitives) (b : Booth) (input : IterOrder × Event) : Booth :=
  b.step P (.event input.1 input.2)

/-- The event throws the bucket out: a vote that needs room for a new bucket, or a view above. -/
def Ousts (k : ℕ × BlockHash) (b : Booth) (input : IterOrder × Event) : Prop :=
  match input.2 with
  | .voteReceived variant =>
    b.core.reaches variant.signed.value.payload variant.signed.signerValidatorId = true ∧
      b.core.voteBucket.containsKey
        (variant.signed.value.payload.view, variant.signed.value.payload.blockHash) = false ∧
      b.core.victimBucket = some k
  | .pacemakerAdvance v => k.1 < v
  | _ => False

instance (k : ℕ × BlockHash) (b : Booth) : DecidablePred (b.Ousts k)
  | (_, .voteReceived _) => inferInstanceAs (Decidable (_ ∧ _ ∧ _))
  | (_, .pacemakerAdvance v) => inferInstanceAs (Decidable (k.1 < v))
  | (_, .proposalReceived _) | (_, .newViewReceived _) => inferInstanceAs (Decidable False)

/-- The voter whose vote for the bucket the event is. -/
def votesFor (k : ℕ × BlockHash) (b : Booth) (input : IterOrder × Event) : List ValidatorId :=
  match input.2 with
  | .voteReceived variant =>
    if (variant.signed.value.payload.view, variant.signed.value.payload.blockHash) = k ∧
        b.core.reaches variant.signed.value.payload variant.signed.signerValidatorId = true then
      [variant.signed.signerValidatorId]
    else []
  | _ => []

/-- The event is a vote with which the certificate of the bucket is formed. -/
def Forms (P : Primitives) (k : ℕ × BlockHash) (b : Booth) (input : IterOrder × Event) : Prop :=
  match input.2 with
  | .voteReceived variant =>
    ∃ qc, (b.core.recordVote P variant).2.2 = some qc ∧ (qc.view, qc.blockHash) = k
  | _ => False

variable {P : Primitives} {b : Booth} {k : ℕ × BlockHash} {input : IterOrder × Event}

/-- What the event leaves of the voters of a bucket. -/
theorem votersOf_hear :
    (¬ b.Ousts k input → (b.hear P input).votersOf k = b.votesFor k input ++ b.votersOf k) ∧
      (b.Ousts k input → (b.hear P input).votersOf k = []) := by
  obtain ⟨order, event⟩ := input
  have hafter : (b.core.step P order event).1.voteBucket.containsKey k =
      (b.core.afterVotes P event).voteBucket.containsKey k := by
    rw [(HotStuffCore.sameVotes_step P b.core order event).voteBucket]
  unfold votersOf hear step Ousts votesFor
  simp only [hafter]
  cases event with
  | voteReceived variant =>
    simp only [HotStuffCore.afterVotes, note, noteVote]
    cases hreach : b.core.reaches variant.signed.value.payload variant.signed.signerValidatorId with
    | false =>
      rcases HotStuffCore.recordVote_cases P b.core variant with ⟨htrue, -⟩ | ⟨-, hc, -⟩
      · rw [hreach] at htrue
        cases htrue
      · simp [hc]
    | true =>
      obtain ⟨i, d, hbucket, hlimits, hstate, hrecord⟩ :=
        HotStuffCore.recordVote_of_reaches P hreach
      simp only [hrecord]
      by_cases hk : k = (variant.signed.value.payload.view, variant.signed.value.payload.blockHash)
      · have hself := d.containsKey_addToBucket_self P variant.signed.value.payload
          (d.state.validatorHistory.setAt variant.signed.value.payload.view) i variant.bls
        rw [← hk] at hself
        simp only [← hk]
        have hstays : ¬ (b.core.voteBucket.containsKey k = false ∧
            b.core.victimBucket = some k) := by
          rintro ⟨hnone, hv⟩
          rw [Table.containsKey_of_victim hv] at hnone
          cases hnone
        simp [hself, hstays, votersOf]
      · have hkept := d.containsKey_addToBucket_of_ne P variant.signed.value.payload
          (d.state.validatorHistory.setAt variant.signed.value.payload.view) i variant.bls hk
        rw [hbucket, HotStuffCore.victimBucket_congr hbucket hlimits] at hkept
        simp only [hkept, if_true, true_and, Ne.symm hk, false_and, if_false, List.nil_append,
          Function.update_of_ne hk]
        constructor
        · intro hstays
          simp only [hstays, if_false]
        · intro hout
          simp only [hout, and_self, if_true, Bool.false_eq_true, if_false]
  | pacemakerAdvance v =>
    have hget : (b.core.evictVoteBucketsBelow v).voteBucket.get? k =
        if decide (v ≤ k.1) then b.core.voteBucket.get? k else none :=
      Table.get?_retain_key _ _ _
    simp only [HotStuffCore.afterVotes, note, Table.containsKey, hget, List.nil_append]
    constructor
    · intro hle
      rw [if_pos (decide_eq_true (Nat.le_of_not_lt hle))]
      rfl
    · intro hlt
      simp [Nat.not_le_of_lt hlt]
  | proposalReceived _ =>
    simp only [not_false_eq_true, List.nil_append, forall_const, false_imp_iff, and_true]
    rfl
  | newViewReceived _ =>
    simp only [not_false_eq_true, List.nil_append, forall_const, false_imp_iff, and_true]
    rfl

theorem bucketsOk_hear (h : BucketsOk b) (input : IterOrder × Event) :
    BucketsOk (b.hear P input) := VoteBuckets.bucketsOk_event h input.1 input.2

theorem setAt_hear (input : IterOrder × Event) (view : ℕ) :
    (b.hear P input).setAt view = b.setAt view := by
  show ((b.core.step P input.1 input.2).1.state.validatorHistory).setAt view = _
  rw [HotStuffCore.validatorHistory_step]
  rfl

/-- A bucket has a quorum when its voters outweigh the others. -/
theorem hasQuorum_iff_outweighs {qc : QuorumCertificate} (h : BucketOk b k qc) :
    qc.hasQuorum (b.setAt k.1) = true ↔ (b.setAt k.1).Outweighs (b.reached k) := by
  have hvoters : qc.voters (b.setAt k.1) = (b.reached k).toFinset := by
    ext id
    rw [QuorumCertificate.mem_voters, List.mem_toFinset]
    constructor
    · rintro ⟨i, hi, hmem⟩
      exact ((h.bit id i hi).mp ((h.sized.mem_iterSet i).mp hmem)).2
    · intro hid
      obtain ⟨hdedupe, i, hi⟩ := h.members id hid
      exact ⟨i, hi, (h.sized.mem_iterSet i).mpr ((h.bit id i hi).mpr ⟨hdedupe, hid⟩)⟩
  rw [QuorumCertificate.hasQuorum_iff, Quorum.IsQuorum, ← ValidatorSet.totalWeight_eq_weight,
    ← QuorumCertificate.signerWeight_eq, QuorumCertificate.signerWeight_eq_sum_voters, hvoters,
    ValidatorSet.Outweighs]

theorem not_outweighs_nil (vs : ValidatorSet) : ¬ vs.Outweighs [] := by
  simp [ValidatorSet.Outweighs]

/-- The bucket that a vote reaches, and the certificate that comes with the vote. -/
theorem bucket_hear_vote (h : BucketsOk b) (order : IterOrder) {variant : VoteVariant}
    {vote : Vote} (hvote : variant.signed.value.payload = vote)
    (hreach : b.core.reaches vote variant.signed.signerValidatorId = true) :
    ∃ added, BucketOk (b.hear P (order, .voteReceived variant)) (vote.view, vote.blockHash) added ∧
      (b.hear P (order, .voteReceived variant)).votersOf (vote.view, vote.blockHash) =
        (b.hear P (order, .voteReceived variant)).reached (vote.view, vote.blockHash) ∧
      (b.core.recordVote P variant).2.2 =
        if (b.core.bucketFor vote).hasQuorum (b.setAt vote.view) ||
          !added.hasQuorum (b.setAt vote.view) then none else some added := by
  obtain ⟨i, d, hbucket, -, hstate, hrecord⟩ :=
    HotStuffCore.recordVote_of_reaches P (hvote ▸ hreach)
  rw [hvote] at hrecord
  obtain ⟨-, hin, -, -⟩ := HotStuffCore.addToBucket_spec P d vote i variant.bls rfl
  have hformed := HotStuffCore.addToBucket_formed P d vote i variant.bls
  have hfor : d.bucketFor vote = b.core.bucketFor vote := by
    unfold HotStuffCore.bucketFor
    rw [hbucket, hstate]
  have hset : d.state.validatorHistory.setAt vote.view = b.setAt vote.view := by
    rw [hstate]
    rfl
  rw [hfor] at hin hformed
  rw [hset] at hin hformed hrecord
  have hget : (b.hear P (order, .voteReceived variant)).core.voteBucket.get?
      (vote.view, vote.blockHash) =
        some ((b.core.bucketFor vote).addBlsPartial P i variant.bls) := by
    show (b.core.step P order (.voteReceived variant)).1.voteBucket.get? _ = _
    rw [(HotStuffCore.sameVotes_step P b.core order (.voteReceived variant)).voteBucket]
    show (b.core.recordVote P variant).1.voteBucket.get? _ = _
    rw [hrecord]
    exact hin
  refine ⟨_, (bucketsOk_hear (P := P) h (order, .voteReceived variant)).bucket _ _ hget,
    if_pos ((Table.containsKey_iff _ _).mpr ⟨_, hget⟩), ?_⟩
  rw [hrecord]
  exact hformed

/-- A certificate is formed by the vote with which the voters of its bucket come to outweigh the
others. -/
theorem forms_iff (h : BucketsOk b) : b.Forms P k input ↔ b.votesFor k input ≠ [] ∧
    ¬ (b.setAt k.1).Outweighs (b.votersOf k) ∧
      (b.setAt k.1).Outweighs ((b.hear P input).votersOf k) := by
  have hset := setAt_hear (P := P) (b := b) input
  obtain ⟨order, event⟩ := input
  cases event with
  | pacemakerAdvance v => simp [Forms, votesFor]
  | proposalReceived _ => simp [Forms, votesFor]
  | newViewReceived _ => simp [Forms, votesFor]
  | voteReceived variant =>
    unfold Forms votesFor
    simp only
    cases hreach : b.core.reaches variant.signed.value.payload variant.signed.signerValidatorId with
    | false =>
      rcases HotStuffCore.recordVote_cases P b.core variant with ⟨htrue, -⟩ | ⟨-, -, hnone⟩
      · rw [hreach] at htrue
        cases htrue
      · simp [hnone]
    | true =>
      obtain ⟨added, hadded, hvoters, hformed⟩ := bucket_hear_vote (P := P) h order rfl hreach
      have hbefore := hasQuorum_iff_outweighs
        (VoteBuckets.bucketOk_bucketFor h variant.signed.value.payload)
      have hafter := hasQuorum_iff_outweighs hadded
      rw [hset, ← hvoters] at hafter
      change (b.core.bucketFor variant.signed.value.payload).hasQuorum
        (b.setAt variant.signed.value.payload.view) = true ↔
          (b.setAt variant.signed.value.payload.view).Outweighs (b.votersOf _) at hbefore
      have hkey : (added.view, added.blockHash) =
          (variant.signed.value.payload.view, variant.signed.value.payload.blockHash) :=
        Prod.ext hadded.view hadded.blockHash
      rw [hformed]
      constructor
      · rintro ⟨qc, hqc, hk⟩
        split_ifs at hqc with hquorum
        obtain rfl := Option.some.inj hqc
        rw [hkey] at hk
        subst hk
        simp only [Bool.or_eq_true, Bool.not_eq_true', not_or, Bool.not_eq_false] at hquorum
        exact ⟨by simp, fun hb => hquorum.1 (hbefore.mpr hb), hafter.mp hquorum.2⟩
      · rintro ⟨hvotes, hnot, hnow⟩
        have hk : (variant.signed.value.payload.view,
            variant.signed.value.payload.blockHash) = k := by
          by_contra hk
          simp [hk] at hvotes
        subst hk
        refine ⟨added, ?_, hkey⟩
        rw [if_neg]
        simp only [Bool.or_eq_true, Bool.not_eq_true', not_or, Bool.not_eq_false]
        exact ⟨fun hb => hnot (hbefore.mp hb), hafter.mpr hnow⟩

/-- A certificate that is formed leaves the core with one that is as late. -/
theorem highQc_hear_of_forms (hf : b.Forms P k input) :
    ∃ qc ∈ (b.hear P input).core.state.highQc, k.1 ≤ qc.view := by
  obtain ⟨order, event⟩ := input
  cases event with
  | voteReceived variant =>
    obtain ⟨formed, hformed, rfl⟩ := hf
    show ∃ qc ∈ (b.core.onVoteReceived P variant).1.state.highQc, formed.view ≤ qc.view
    unfold HotStuffCore.onVoteReceived
    rcases hr : b.core.recordVote P variant with ⟨c', actions, formed'⟩
    rw [hr] at hformed
    obtain rfl : formed' = some formed := hformed
    simp only [HotStuffCore.adoptFormed]
    split_ifs with hupdate
    · exact ⟨formed, rfl, Nat.le_refl _⟩
    · unfold shouldUpdateHighQc at hupdate
      cases hq : c'.state.highQc with
      | none => simp [hq] at hupdate
      | some qc =>
        simp only [hq, decide_eq_true_eq] at hupdate
        exact ⟨qc, rfl, Nat.le_of_not_lt hupdate⟩
  | pacemakerAdvance v => exact hf.elim
  | proposalReceived _ => exact hf.elim
  | newViewReceived _ => exact hf.elim

theorem highQc_hear (input : IterOrder × Event) (h : ∃ qc ∈ b.core.state.highQc, k.1 ≤ qc.view) :
    ∃ qc ∈ (b.hear P input).core.state.highQc, k.1 ≤ qc.view := by
  obtain ⟨qc, hqc, hle⟩ := h
  obtain ⟨qc', hqc', hle'⟩ :=
    (HotStuffCore.emits_step P input.1 b.core input.2).highQc_le qc hqc
  exact ⟨qc', hqc', hle.trans hle'⟩

end Booth

/-- A core forms the certificate of a view and a hash in a run exactly when a stretch of it that
throws the bucket out nowhere brings votes of a quorum; its certificate is as late from then on. -/
theorem quorum_formed_iff (P : Primitives) (selfId : NodeId) (state : HotStuffState)
    (limits : CacheLimits) (k : ℕ × BlockHash) (inputs : List (IterOrder × Event)) :
    (Sometime (Booth.hear P) (Booth.Forms P k) (.start selfId state limits) inputs ∧
        ∃ qc ∈ (run (Booth.hear P) (.start selfId state limits) inputs).core.state.highQc,
          k.1 ≤ qc.view) ↔
      Within (Booth.hear P) (Booth.votesFor k) (fun b input => ¬ b.Ousts k input)
        (state.validatorHistory.setAt k.1).Outweighs (.start selfId state limits) inputs := by
  have hstart : BucketsOk (.start selfId state limits) :=
    VoteBuckets.bucketsOk_start selfId state limits
  have hstep : ∀ (b : Booth) (input : IterOrder × Event),
      BucketsOk b ∧ b.setAt k.1 = state.validatorHistory.setAt k.1 →
      BucketsOk (b.hear P input) ∧
        (b.hear P input).setAt k.1 = state.validatorHistory.setAt k.1 := by
    intro b input hb
    exact ⟨Booth.bucketsOk_hear hb.1 input, (Booth.setAt_hear input k.1).trans hb.2⟩
  have hempty : (Booth.start selfId state limits).votersOf k = [] := ite_self _
  have hkeep : ∀ (b : Booth) (input : IterOrder × Event), ¬ b.Ousts k input →
      (b.hear P input).votersOf k = b.votesFor k input ++ b.votersOf k :=
    fun _ _ => Booth.votersOf_hear.1
  have hdrop : ∀ (b : Booth) (input : IterOrder × Event), ¬ ¬ b.Ousts k input →
      (b.hear P input).votersOf k = [] :=
    fun _ _ hout => Booth.votersOf_hear.2 (not_not.mp hout)
  constructor
  · rintro ⟨hsome, -⟩
    obtain ⟨before, input, after, rfl, hforms⟩ := sometime_iff.mp hsome
    obtain ⟨hb, hset⟩ := run_invariant hstep ⟨hstart, rfl⟩ before
    have hheavy := ((Booth.forms_iff hb).mp hforms).2.2
    obtain ⟨pre, during, hsplit, hkept, hcontent⟩ := content_since
      (C := fun b : Booth => b.votersOf k) hkeep hdrop hempty (before ++ [input])
    rw [run_append, run_cons, run_nil] at hcontent
    rw [hset, hcontent] at hheavy
    refine ⟨pre, during, after, ?_, hkept, hheavy⟩
    rw [← hsplit, List.append_assoc, List.singleton_append]
  · rintro ⟨before, during, after, rfl, hkept, hheavy⟩
    have hcontent := content_of_keeps (C := fun b : Booth => b.votersOf k) hkeep hkept
    have hend : (state.validatorHistory.setAt k.1).Outweighs
        ((run (Booth.hear P) (.start selfId state limits) (before ++ during)).votersOf k) := by
      rw [run_append, hcontent]
      exact hheavy.append _
    have hsome : Sometime (Booth.hear P) (Booth.Forms P k) (.start selfId state limits)
        (before ++ during) := by
      refine (Sometime.of_change (R := fun _ _ => True)
        (G := fun b => (state.validatorHistory.setAt k.1).Outweighs (b.votersOf k))
        (Along.of_forall fun _ _ => trivial) (fun b input _ => hstep b input) ?_
        ⟨hstart, rfl⟩ hend).resolve_left ?_
      · intro b input _ hb hnow
        by_cases hbefore : (state.validatorHistory.setAt k.1).Outweighs (b.votersOf k)
        · exact .inl hbefore
        · refine .inr ((Booth.forms_iff hb.1).mpr ⟨?_, hb.2 ▸ hbefore, hb.2 ▸ hnow⟩)
          intro hnone
          by_cases hout : b.Ousts k input
          · rw [Booth.votersOf_hear.2 hout] at hnow
            exact Booth.not_outweighs_nil _ hnow
          · rw [Booth.votersOf_hear.1 hout, hnone, List.nil_append] at hnow
            exact hbefore hnow
      · rw [hempty]
        exact Booth.not_outweighs_nil _
    refine ⟨hsome.append after, ?_⟩
    obtain ⟨pre, input, post, hsplit, hforms⟩ := sometime_iff.mp hsome
    rw [hsplit, List.append_assoc, run_append, List.cons_append, run_cons]
    exact run_invariant (I := fun b : Booth => ∃ qc ∈ b.core.state.highQc, k.1 ≤ qc.view)
      (fun _ input => Booth.highQc_hear input) (Booth.highQc_hear_of_forms hforms) _

end Boule
