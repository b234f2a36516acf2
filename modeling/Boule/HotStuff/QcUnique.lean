import Boule.HotStuff.Network
import Boule.HotStuff.Votes

/-! Certificates that replicas form from votes under one fixed validator set. -/
namespace Boule

/-- A vote together with the validator that cast it. -/
abbrev Ballot := ValidatorId × Vote

def Event.ballot? : Event → Option Ballot
  | .voteReceived variant =>
    some (variant.signed.signerValidatorId, variant.signed.value.payload)
  | _ => none

/-- The certificate that `on_vote_received` forms. -/
def HotStuffCore.formed (P : Primitives) (c : HotStuffCore) : Event → Option QuorumCertificate
  | .voteReceived variant => (c.recordVote P variant).2.2
  | _ => none

/-- Replicas, the votes delivered to them and the certificates they formed. -/
structure Tally where
  cores : ValidatorId → HotStuffCore
  ballots : List Ballot
  formed : List QuorumCertificate

namespace Tally

def start (P : Primitives) (vs : ValidatorSet) (genesis : Block)
    (limits : ValidatorId → CacheLimits) : Tally where
  cores := fun id => .withLimits id (.new P vs genesis) (limits id)
  ballots := []
  formed := []

def deliver (P : Primitives) (t : Tally) (d : Delivery) : Tally where
  cores := Function.update t.cores d.node ((t.cores d.node).step P d.order d.event).1
  ballots := t.ballots ++ d.event.ballot?.toList
  formed := t.formed ++ ((t.cores d.node).formed P d.event).toList

end Tally

/-- The validators with votes for two blocks in one view. -/
def equivocators (ballots : List Ballot) : Finset ValidatorId :=
  (ballots.map Prod.fst).toFinset.filter fun id => ∃ b ∈ ballots, ∃ b' ∈ ballots,
    b.1 = id ∧ b'.1 = id ∧ b.2.view = b'.2.view ∧ b.2.blockHash ≠ b'.2.blockHash

theorem eq_of_not_mem_equivocators {ballots : List Ballot} {id : ValidatorId} {view : ℕ}
    {h h' : BlockHash} (hid : id ∉ equivocators ballots) (hb : (id, ⟨view, h⟩) ∈ ballots)
    (hb' : (id, ⟨view, h'⟩) ∈ ballots) : h = h' := by
  by_contra hne
  apply hid
  rw [equivocators, Finset.mem_filter, List.mem_toFinset]
  exact ⟨List.mem_map_of_mem hb, _, hb, _, hb', rfl, rfl, rfl, hne⟩

/-- The certificate of the bucket `k` counts only votes for `k`. -/
structure Counts (vs : ValidatorSet) (ballots : List Ballot) (k : ℕ × BlockHash)
    (qc : QuorumCertificate) : Prop where
  view : qc.view = k.1
  blockHash : qc.blockHash = k.2
  sized : qc.signers.Sized
  len : qc.signers.len = vs.len
  signed : ∀ i, qc.signers.get i = true →
    ∃ id, vs.indexOf id = some i ∧ (id, ⟨k.1, k.2⟩) ∈ ballots

namespace Counts
variable {vs : ValidatorSet} {ballots ballots' : List Ballot} {k : ℕ × BlockHash}
  {qc : QuorumCertificate}

theorem new (vs : ValidatorSet) (ballots : List Ballot) (k : ℕ × BlockHash) :
    Counts vs ballots k (.new k.1 k.2 vs.len) where
  view := rfl
  blockHash := rfl
  sized := SignerBitmap.sized_new _
  len := rfl
  signed := fun i hi => by
    have hn : (SignerBitmap.new vs.len).get i = true := hi
    rw [SignerBitmap.get_new] at hn
    cases hn

theorem mono (h : Counts vs ballots k qc) (hsub : ballots ⊆ ballots') :
    Counts vs ballots' k qc where
  view := h.view
  blockHash := h.blockHash
  sized := h.sized
  len := h.len
  signed := fun i hi => by
    obtain ⟨id, hid, hb⟩ := h.signed i hi
    exact ⟨id, hid, hsub hb⟩

theorem addBlsPartial (P : Primitives) {id : ValidatorId} {i : ℕ} (bls : BlsPartialSig)
    (h : Counts vs ballots k qc) (hi : vs.indexOf id = some i)
    (hb : (id, ⟨k.1, k.2⟩) ∈ ballots) : Counts vs ballots k (qc.addBlsPartial P i bls) where
  view := (qc.addBlsPartial_view P i bls).trans h.view
  blockHash := (qc.addBlsPartial_blockHash P i bls).trans h.blockHash
  sized := qc.addBlsPartial_sized P i bls h.sized
  len := (qc.addBlsPartial_len P i bls).trans h.len
  signed := fun j hj => by
    have hlt : i < qc.signers.len := h.len ▸ ValidatorSet.indexOf_lt hi
    rw [qc.addBlsPartial_get P i bls h.sized hlt, Bool.or_eq_true, decide_eq_true_iff] at hj
    rcases hj with rfl | hj
    · exact ⟨id, hi, hb⟩
    · exact h.signed j hj

theorem ballot_of_mem_voters (h : Counts vs ballots k qc) {id : ValidatorId}
    (hid : id ∈ qc.voters vs) : (id, ⟨k.1, k.2⟩) ∈ ballots := by
  obtain ⟨i, hi, hs⟩ := QuorumCertificate.mem_voters.mp hid
  obtain ⟨id', hi', hb⟩ := h.signed i ((h.sized.mem_iterSet i).mp hs)
  rwa [ValidatorSet.indexOf_inj hi hi']

/-- Two quorums for one view count a validator that does not equivocate. -/
theorem eq_of_hasQuorum {k' : ℕ × BlockHash} {qc' : QuorumCertificate}
    (h : Counts vs ballots k qc) (h' : Counts vs ballots k' qc') (hview : k.1 = k'.1)
    (hq : qc.hasQuorum vs = true) (hq' : qc'.hasQuorum vs = true)
    (hz : 3 * Quorum.weight vs.weightAt (vs.indicesOf (equivocators ballots)) < vs.totalWeight) :
    k.2 = k'.2 := by
  rw [ValidatorSet.totalWeight_eq_weight] at hz
  obtain ⟨i, hi, hi', hnz⟩ := Quorum.exists_common_of_isQuorum vs.weightAt
    (qc.signerSet_subset vs) (qc'.signerSet_subset vs) ((qc.hasQuorum_iff vs).mp hq)
    ((qc'.hasQuorum_iff vs).mp hq') (vs.indicesOf (equivocators ballots)) hz.le
  have hlt : i < vs.len := Finset.mem_range.mp (qc.signerSet_subset vs hi)
  obtain ⟨id, hid⟩ := vs.exists_indexOf hlt
  have hmem : ∀ {qc : QuorumCertificate}, i ∈ qc.signerSet vs → id ∈ qc.voters vs :=
    fun hi => QuorumCertificate.mem_voters.mpr
      ⟨i, hid, (List.mem_filter.mp (List.mem_toFinset.mp hi)).1⟩
  have hne : id ∉ equivocators ballots := fun he => hnz (Finset.mem_filter.mpr
    ⟨Finset.mem_range.mpr hlt, id, he, (vs.indexOf_eq_some_iff id i).mp hid⟩)
  have hb := h.ballot_of_mem_voters (hmem hi)
  have hb' := h'.ballot_of_mem_voters (hmem hi')
  rw [← hview] at hb'
  exact eq_of_not_mem_equivocators hne hb hb'

end Counts

/-- The replica's history is the fixed set, and its buckets count votes from the run. -/
structure Filled (vs : ValidatorSet) (ballots : List Ballot) (c : HotStuffCore) : Prop where
  history : c.state.validatorHistory = .fromGenesis vs
  buckets : ∀ k qc, c.voteBucket.get? k = some qc → Counts vs ballots k qc

namespace Filled
variable {P : Primitives} {vs : ValidatorSet} {ballots ballots' : List Ballot} {c c' : HotStuffCore}

theorem mono (h : Filled vs ballots c) (hsub : ballots ⊆ ballots') : Filled vs ballots' c :=
  ⟨h.history, fun k qc hk => (h.buckets k qc hk).mono hsub⟩

theorem same (h : Filled vs ballots c) (hs : c.SameVotes c') : Filled vs ballots c' :=
  ⟨hs.validatorHistory.trans h.history, fun k qc hk => h.buckets k qc (hs.voteBucket ▸ hk)⟩

theorem setAt (h : Filled vs ballots c) (v : ℕ) : c.state.validatorHistory.setAt v = vs := by
  rw [h.history, ValidatorSetHistory.setAt_fromGenesis]

theorem bucketFor (h : Filled vs ballots c) (vote : Vote) :
    Counts vs ballots (vote.view, vote.blockHash) (c.bucketFor vote) := by
  unfold HotStuffCore.bucketFor
  rw [h.setAt]
  cases hk : c.voteBucket.get? (vote.view, vote.blockHash) with
  | none => exact Counts.new vs ballots (vote.view, vote.blockHash)
  | some qc => exact h.buckets _ qc hk

/-- A recorded vote keeps the buckets, and a certificate it completes counts its quorum. -/
theorem recordVote (h : Filled vs ballots c) (variant : VoteVariant)
    (hb : (variant.signed.signerValidatorId, variant.signed.value.payload) ∈ ballots) :
    Filled vs ballots (c.recordVote P variant).1 ∧
      ∀ qc ∈ (c.recordVote P variant).2.2,
        Counts vs ballots (qc.view, qc.blockHash) qc ∧ qc.hasQuorum vs = true := by
  have hstate := (HotStuffCore.recordVote_frame P c variant).1.state
  rcases HotStuffCore.recordVote_cases P c variant with ⟨-, i, hrec⟩ | ⟨-, hc, hnone⟩
  · have hi := hrec.index
    rw [h.setAt] at hi
    have hadd := (h.bucketFor variant.signed.value.payload).addBlsPartial P variant.bls hi hb
    refine ⟨⟨hstate ▸ h.history, fun k qc hk => ?_⟩, fun qc hqc => ?_⟩
    · by_cases hkey :
        k = (variant.signed.value.payload.view, variant.signed.value.payload.blockHash)
      · rw [hkey, hrec.bucket] at hk
        obtain rfl := Option.some.inj hk
        exact hkey ▸ hadd
      · exact h.buckets k qc (hrec.bucket_other k qc hkey hk)
    · obtain ⟨rfl, hq⟩ := hrec.formed qc hqc
      rw [h.setAt] at hq
      refine ⟨?_, hq⟩
      rw [hadd.view, hadd.blockHash]
      exact hadd
  · rw [hc, hnone]
    exact ⟨h, by simp⟩

theorem evictVoteBucketsBelow (h : Filled vs ballots c) (v : ℕ) :
    Filled vs ballots (c.evictVoteBucketsBelow v) :=
  ⟨h.history, fun k qc hk => h.buckets k qc (Table.get?_of_retain hk)⟩

theorem step (h : Filled vs ballots c) (order : IterOrder) (e : Event)
    (hb : ∀ b ∈ e.ballot?, b ∈ ballots) :
    Filled vs ballots (c.step P order e).1 ∧
      ∀ qc ∈ c.formed P e, Counts vs ballots (qc.view, qc.blockHash) qc ∧
        qc.hasQuorum vs = true := by
  have hsame := HotStuffCore.sameVotes_step P c order e
  cases e with
  | voteReceived variant =>
    obtain ⟨hfilled, hformed⟩ := h.recordVote (P := P) variant (hb _ rfl)
    exact ⟨hfilled.same hsame, hformed⟩
  | pacemakerAdvance v => exact ⟨(h.evictVoteBucketsBelow v).same hsame, fun _ hf => nomatch hf⟩
  | proposalReceived _ => exact ⟨h.same hsame, fun _ hf => nomatch hf⟩
  | newViewReceived _ => exact ⟨h.same hsame, fun _ hf => nomatch hf⟩

end Filled

namespace Tally
variable {P : Primitives} {vs : ValidatorSet}

/-- What every run keeps. -/
structure Sound (vs : ValidatorSet) (t : Tally) : Prop where
  cores : ∀ id, Filled vs t.ballots (t.cores id)
  formed : ∀ qc ∈ t.formed, Counts vs t.ballots (qc.view, qc.blockHash) qc ∧
    qc.hasQuorum vs = true

theorem Sound.deliver {t : Tally} (h : Sound vs t) (d : Delivery) : Sound vs (t.deliver P d) := by
  have hsub : t.ballots ⊆ (t.deliver P d).ballots := List.subset_append_left _ _
  have hb : ∀ b ∈ d.event.ballot?, b ∈ (t.deliver P d).ballots := fun b hb =>
    List.mem_append_right _ (Option.mem_toList.mpr hb)
  obtain ⟨hcore, hformed⟩ := ((h.cores d.node).mono hsub).step (P := P) d.order d.event hb
  constructor
  · intro id
    show Filled vs _ (Function.update t.cores d.node _ id)
    by_cases hid : id = d.node
    · rw [hid, Function.update_self]
      exact hcore
    · rw [Function.update_of_ne hid]
      exact (h.cores id).mono hsub
  · intro qc hqc
    rcases List.mem_append.mp hqc with hqc | hqc
    · obtain ⟨hc, hq⟩ := h.formed qc hqc
      exact ⟨hc.mono hsub, hq⟩
    · exact hformed qc (Option.mem_toList.mp hqc)

theorem sound_run (P : Primitives) (vs : ValidatorSet) (genesis : Block)
    (limits : ValidatorId → CacheLimits) (deliveries : List Delivery) :
    Sound vs (run (deliver P) (start P vs genesis limits) deliveries) := by
  have hstart : Sound vs (start P vs genesis limits) := by
    refine ⟨fun id => ⟨rfl, fun k qc hk => ?_⟩, fun qc hqc => nomatch hqc⟩
    have hn : Table.get? (∅ : Table (ℕ × BlockHash) QuorumCertificate) k = some qc := hk
    simp at hn
  have htriv : Along (deliver P) (fun _ _ => True) (start P vs genesis limits) deliveries :=
    .of_forall fun _ _ => trivial
  exact htriv.invariant (fun t d _ ht => ht.deliver d) hstart

end Tally

/-- While the equivocators hold less than a third of the weight, the certificates formed in one
view name one block, whichever replica formed them; each counts every validator at most once
and only for a vote it cast. -/
theorem formed_unique_of_equivocators_lt (P : Primitives) (vs : ValidatorSet) (genesis : Block)
    (limits : ValidatorId → CacheLimits) (deliveries : List Delivery) {t : Tally}
    (ht : t = run (Tally.deliver P) (Tally.start P vs genesis limits) deliveries)
    (hz : 3 * Quorum.weight vs.weightAt (vs.indicesOf (equivocators t.ballots)) <
      vs.totalWeight) :
    (∀ qc ∈ t.formed, ∀ qc' ∈ t.formed, qc.view = qc'.view → qc.blockHash = qc'.blockHash) ∧
      ∀ qc ∈ t.formed,
        qc.signerWeight vs = ∑ id ∈ qc.voters vs, (vs.weightFor id).getD 0 ∧
        ∀ id ∈ qc.voters vs, (id, ⟨qc.view, qc.blockHash⟩) ∈ t.ballots := by
  subst ht
  have hsound := Tally.sound_run P vs genesis limits deliveries
  constructor
  · intro qc hqc qc' hqc' hview
    obtain ⟨hc, hq⟩ := hsound.formed qc hqc
    obtain ⟨hc', hq'⟩ := hsound.formed qc' hqc'
    exact hc.eq_of_hasQuorum hc' hview hq hq' hz
  · intro qc hqc
    exact ⟨qc.signerWeight_eq_sum_voters vs,
      fun id hid => (hsound.formed qc hqc).1.ballot_of_mem_voters hid⟩

namespace Sample

/-- The vote of validator `id` for the hash `h` in view 1, delivered to `node`. -/
def ballotAt (node id : ValidatorId) (h : BlockHash) : Delivery :=
  ⟨node, order, .voteReceived ⟨⟨⟨⟨1, h⟩, id, 0⟩, id⟩, id⟩⟩

/-- Validator 4 votes for two blocks, one at each of two replicas. -/
def election : Tally :=
  run (Tally.deliver primitives)
    (.start primitives validators genesis fun _ => .unboundedForTests)
    [ballotAt 1 1 2, ballotAt 1 2 2, ballotAt 1 4 7, ballotAt 1 3 2,
      ballotAt 2 2 2, ballotAt 2 4 2, ballotAt 2 3 2]

theorem formed_unique_election :
    equivocators election.ballots = {4} ∧ election.formed.length = 2 ∧
      ∀ qc ∈ election.formed, ∀ qc' ∈ election.formed, qc.view = qc'.view →
        qc.blockHash = qc'.blockHash :=
  ⟨by decide +kernel, by decide +kernel,
    (formed_unique_of_equivocators_lt primitives validators genesis (fun _ => .unboundedForTests)
      _ (t := election) rfl (by decide +kernel)).1⟩

end Sample

end Boule
