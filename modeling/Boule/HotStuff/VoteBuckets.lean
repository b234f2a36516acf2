import Boule.HotStuff.Headers
import Boule.HotStuff.Votes
import Boule.Lib.Run

/-! The vote buckets over runs that also change the validator history. -/
namespace Boule

/-- A replica and, for each bucket, the validators whose votes reached it since it was made. -/
structure Booth where
  core : HotStuffCore
  reached : ℕ × BlockHash → List ValidatorId

inductive BoothInput where
  | event (order : IterOrder) (event : Event)
  | boundary (vEff : ℕ) (set : ValidatorSet)

namespace Booth

def start (selfId : NodeId) (state : HotStuffState) (limits : CacheLimits) : Booth where
  core := .withLimits selfId state limits
  reached := fun _ => []

/-- The voters of the bucket, none if it is not there. -/
def votersOf (b : Booth) (k : ℕ × BlockHash) : List ValidatorId :=
  if b.core.voteBucket.containsKey k then b.reached k else []

def noteVote (b : Booth) (vote : Vote) (id : ValidatorId) : ℕ × BlockHash → List ValidatorId :=
  if b.core.reaches vote id then
    Function.update b.reached (vote.view, vote.blockHash)
      (id :: b.votersOf (vote.view, vote.blockHash))
  else b.reached

def note (b : Booth) : Event → ℕ × BlockHash → List ValidatorId
  | .voteReceived variant =>
    b.noteVote variant.signed.value.payload variant.signed.signerValidatorId
  | _ => b.reached

def step (P : Primitives) (b : Booth) : BoothInput → Booth
  | .event order event => ⟨(b.core.step P order event).1, b.note event⟩
  | .boundary vEff set =>
    match b.core.insertValidatorBoundary vEff set with
    | .ok core => { b with core := core }
    | .error _ => b

/-- The set that the replica's history has for the view. -/
def setAt (b : Booth) (view : ℕ) : ValidatorSet := b.core.state.validatorHistory.setAt view

end Booth

/-- The certificate of bucket `k` is for `k`, fits the set of its view, and has the bits of the
validators that voted for `k` and reached this bucket. -/
structure BucketOk (b : Booth) (k : ℕ × BlockHash) (qc : QuorumCertificate) : Prop where
  view : qc.view = k.1
  blockHash : qc.blockHash = k.2
  sized : qc.signers.Sized
  len : qc.signers.len = (b.setAt k.1).len
  bit : ∀ id i, (b.setAt k.1).indexOf id = some i →
    (qc.signers.get i = true ↔ b.core.voteDedupe.get? (k.1, id) = some k.2 ∧ id ∈ b.reached k)
  members : ∀ id ∈ b.reached k, b.core.voteDedupe.get? (k.1, id) = some k.2 ∧
    ∃ i, (b.setAt k.1).indexOf id = some i

/-- The representation invariant of the vote buckets. -/
structure BucketsOk (b : Booth) : Prop where
  bucket : ∀ k qc, b.core.voteBucket.get? k = some qc → BucketOk b k qc
  one_bucket : ∀ k k' qc qc' id i, b.core.voteBucket.get? k = some qc →
    b.core.voteBucket.get? k' = some qc' → k.1 = k'.1 → (b.setAt k.1).indexOf id = some i →
    qc.signers.get i = true → qc'.signers.get i = true → k = k'
  calls_in_bounds : ∀ vote id i, (b.setAt vote.view).indexOf id = some i →
    (b.core.bucketFor vote).signers.len = (b.setAt vote.view).len ∧
      i < (b.core.bucketFor vote).signers.len

/-- A boundary at or before the view of a bucket leaves the bucket's signers at their index in
a set of the same length. -/
def KeepsSigners (b : Booth) : BoothInput → Prop
  | .event _ _ => True
  | .boundary vEff set => b.core.state.validatorHistory.last.vEff < vEff →
    ∀ e ∈ b.core.voteBucket.toList, vEff ≤ e.1.1 →
      set.len = (b.setAt e.1.1).len ∧
        ∀ i ∈ e.2.signers.iterSet, set.get? i = (b.setAt e.1.1).get? i

instance (b : Booth) : DecidablePred (KeepsSigners b)
  | .event _ _ => inferInstanceAs (Decidable True)
  | .boundary .. => inferInstanceAs (Decidable (_ → ∀ e ∈ b.core.voteBucket.toList, _ → _ ∧
      ∀ i ∈ e.2.signers.iterSet, _))

namespace VoteBuckets
variable {P : Primitives} {b : Booth}

/-- What each bucket satisfies carries over to the buckets together. -/
theorem bucketsOk_of_forall
    (h : ∀ k qc, b.core.voteBucket.get? k = some qc → BucketOk b k qc) : BucketsOk b where
  bucket := h
  one_bucket := by
    intro k k' qc qc' id i hk hk' hview hi hb hb'
    obtain ⟨hd, -⟩ := ((h k qc hk).bit id i hi).mp hb
    obtain ⟨hd', -⟩ := ((h k' qc' hk').bit id i (hview ▸ hi)).mp hb'
    rw [← hview, hd] at hd'
    exact Prod.ext hview (Option.some.inj hd')
  calls_in_bounds := by
    intro vote id i hi
    have hlen : (b.core.bucketFor vote).signers.len = (b.setAt vote.view).len := by
      unfold HotStuffCore.bucketFor
      cases hk : b.core.voteBucket.get? (vote.view, vote.blockHash) with
      | none => rfl
      | some qc => exact (h _ qc hk).len
    exact ⟨hlen, hlen ▸ ValidatorSet.indexOf_lt hi⟩

/-- A bucket depends on the set of its view, on its own voters and on their dedupe entries. -/
theorem bucketOk_congr {b' : Booth} {k : ℕ × BlockHash} {qc : QuorumCertificate}
    (h : BucketOk b k qc) (hset : b'.setAt k.1 = b.setAt k.1)
    (hreached : b'.reached k = b.reached k)
    (hdedupe : ∀ id ∈ b.reached k, (b'.core.voteDedupe.get? (k.1, id) = some k.2 ↔
      b.core.voteDedupe.get? (k.1, id) = some k.2)) : BucketOk b' k qc where
  view := h.view
  blockHash := h.blockHash
  sized := h.sized
  len := hset ▸ h.len
  bit := by
    intro id i hi
    rw [hset] at hi
    rw [h.bit id i hi, hreached]
    exact and_congr_left fun hid => (hdedupe id hid).symm
  members := by
    intro id hid
    rw [hreached] at hid
    rw [hset, hdedupe id hid]
    exact h.members id hid

theorem bucketsOk_of_sameVotes {b' : Booth} (h : BucketsOk b)
    (hs : HotStuffCore.SameVotes b.core b'.core) (hr : b'.reached = b.reached) : BucketsOk b' := by
  apply bucketsOk_of_forall
  intro k qc hk
  rw [hs.voteBucket] at hk
  apply bucketOk_congr (h.bucket k qc hk)
  · unfold Booth.setAt
    rw [hs.validatorHistory]
  · rw [hr]
  · intro id _
    rw [hs.voteDedupe]

/-! ### Votes -/

section vote
variable {vote : Vote} {id : ValidatorId} {i : ℕ} {bls : BlsPartialSig}
  {r : HotStuffCore × List Action × Option QuorumCertificate}

/-- The certificate the vote is added to, whether its bucket is there or new. -/
theorem bucketOk_bucketFor (h : BucketsOk b) (vote : Vote) :
    BucketOk { b with reached := b.votersOf } (vote.view, vote.blockHash)
      (b.core.bucketFor vote) := by
  unfold HotStuffCore.bucketFor
  cases hk : b.core.voteBucket.get? (vote.view, vote.blockHash) with
  | none =>
    have hc := (Table.containsKey_eq_false_iff _ _).mpr hk
    refine ⟨rfl, rfl, SignerBitmap.sized_new _, rfl, fun id i _ => ?_, fun id hid => ?_⟩
    · simp [Booth.votersOf, hc, QuorumCertificate.new, SignerBitmap.get_new]
    · simp [Booth.votersOf, hc] at hid
  | some qc =>
    have hc := (Table.containsKey_iff _ _).mpr ⟨qc, hk⟩
    apply bucketOk_congr (h.bucket _ qc hk)
    · rfl
    · simp [Booth.votersOf, hc]
    · exact fun _ _ => Iff.rfl

/-- The bucket of the vote gains the voter's bit. -/
theorem bucketOk_of_recorded_self (h : BucketsOk b)
    (hrec : HotStuffCore.Recorded P b.core vote id i bls r)
    (hreach : b.core.reaches vote id = true)
    (hhist : r.1.state.validatorHistory = b.core.state.validatorHistory) :
    BucketOk ⟨r.1, b.noteVote vote id⟩ (vote.view, vote.blockHash)
      ((b.core.bucketFor vote).addBlsPartial P i bls) := by
  have hi : (b.setAt vote.view).indexOf id = some i := hrec.index
  have hlt := (h.calls_in_bounds vote id i hi).2
  obtain ⟨hview, hhash, hsized, hlen, hbit, hmembers⟩ := bucketOk_bucketFor h vote
  have hset : ∀ v, (⟨r.1, b.noteVote vote id⟩ : Booth).setAt v = b.setAt v := by
    intro v
    unfold Booth.setAt
    rw [hhist]
  have hnote : (⟨r.1, b.noteVote vote id⟩ : Booth).reached (vote.view, vote.blockHash) =
      id :: b.votersOf (vote.view, vote.blockHash) := by
    simp [Booth.noteVote, hreach]
  constructor
  · rw [QuorumCertificate.addBlsPartial_view, hview]
  · rw [QuorumCertificate.addBlsPartial_blockHash, hhash]
  · exact QuorumCertificate.addBlsPartial_sized P _ i bls hsized
  · rw [QuorumCertificate.addBlsPartial_len, hlen, hset]
    rfl
  · intro id' j hj
    rw [hset] at hj
    have heq : j = i ↔ id' = id := by
      constructor
      · rintro rfl
        exact ValidatorSet.indexOf_inj hj hi
      · rintro rfl
        exact Option.some.inj (hj.symm.trans hi)
    rw [QuorumCertificate.addBlsPartial_get P _ i bls hsized hlt, Bool.or_eq_true,
      decide_eq_true_iff, heq, hnote, hrec.dedupe, hbit id' j hj, List.mem_cons]
    by_cases hid : id' = id <;> simp [hid]
  · intro id' hid'
    rw [hnote, List.mem_cons] at hid'
    rw [hset, hrec.dedupe]
    rcases hid' with rfl | hid'
    · exact ⟨if_pos rfl, i, hi⟩
    · obtain ⟨hd, hmem⟩ := hmembers id' hid'
      refine ⟨?_, hmem⟩
      split_ifs
      · rfl
      · exact hd

/-- The other buckets of the view do not hear of the vote. -/
theorem bucketOk_of_recorded_other (h : BucketsOk b)
    (hrec : HotStuffCore.Recorded P b.core vote id i bls r)
    (hhist : r.1.state.validatorHistory = b.core.state.validatorHistory) {k : ℕ × BlockHash}
    {qc : QuorumCertificate} (hne : k ≠ (vote.view, vote.blockHash))
    (hk : b.core.voteBucket.get? k = some qc) : BucketOk ⟨r.1, b.noteVote vote id⟩ k qc := by
  apply bucketOk_congr (h.bucket k qc hk)
  · unfold Booth.setAt
    rw [hhist]
  · show b.noteVote vote id k = b.reached k
    unfold Booth.noteVote
    split_ifs
    · exact Function.update_of_ne hne _ _
    · rfl
  · intro id' _
    show r.1.voteDedupe.get? (k.1, id') = some k.2 ↔ _
    rw [hrec.dedupe]
    split_ifs with he
    · obtain ⟨hview, rfl⟩ := Prod.mk.inj he
      have hhash : vote.blockHash ≠ k.2 := fun hh => hne (Prod.ext hview hh.symm)
      constructor
      · exact fun hs => absurd (Option.some.inj hs) hhash
      · intro hs
        rw [he] at hs
        exact absurd (hrec.dedupe_before _ hs).symm hhash
    · exact Iff.rfl

end vote

theorem bucketsOk_recordVote (h : BucketsOk b) (variant : VoteVariant) :
    BucketsOk ⟨(b.core.recordVote P variant).1, b.note (.voteReceived variant)⟩ := by
  have hstate := (HotStuffCore.recordVote_frame P b.core variant).1.state
  have hhist := congrArg HotStuffState.validatorHistory hstate
  apply bucketsOk_of_forall
  intro k qc hk
  rcases HotStuffCore.recordVote_cases P b.core variant with ⟨hreach, i, hrec⟩ | ⟨hreach, hc, -⟩
  · by_cases hkey : k = (variant.signed.value.payload.view, variant.signed.value.payload.blockHash)
    · have hk' := hk
      rw [hkey] at hk'
      obtain rfl := Option.some.inj (hrec.bucket.symm.trans hk')
      rw [hkey]
      exact bucketOk_of_recorded_self h hrec hreach hhist
    · exact bucketOk_of_recorded_other h hrec hhist hkey (hrec.bucket_other k qc hkey hk)
  · have hk' : b.core.voteBucket.get? k = some qc := hc ▸ hk
    apply bucketOk_congr (h.bucket k qc hk')
    · unfold Booth.setAt
      rw [hhist]
    · simp [Booth.note, Booth.noteVote, hreach]
    · intro id _
      rw [hc]

theorem bucketsOk_evictVoteBucketsBelow (h : BucketsOk b) (v : ℕ) :
    BucketsOk { b with core := b.core.evictVoteBucketsBelow v } := by
  apply bucketsOk_of_forall
  intro k qc hk
  have hk' : (b.core.voteBucket.retain fun k _ => v ≤ k.1).get? k = some qc := hk
  obtain ⟨hget, hge⟩ := (Table.get?_retain_eq_some _ _ _ _).mp hk'
  apply bucketOk_congr (h.bucket k qc hget)
  · rfl
  · rfl
  · intro id _
    show (b.core.voteDedupe.retain fun k _ => v ≤ k.1).get? (k.1, id) = some k.2 ↔ _
    rw [Table.get?_retain_key, if_pos hge]

theorem bucketsOk_event (h : BucketsOk b) (order : IterOrder) (e : Event) :
    BucketsOk (b.step P (.event order e)) := by
  have hsame := HotStuffCore.sameVotes_step P b.core order e
  cases e with
  | voteReceived variant => exact bucketsOk_of_sameVotes (bucketsOk_recordVote h variant) hsame rfl
  | pacemakerAdvance v =>
    exact bucketsOk_of_sameVotes (bucketsOk_evictVoteBucketsBelow h v) hsame rfl
  | proposalReceived _ => exact bucketsOk_of_sameVotes h hsame rfl
  | newViewReceived _ => exact bucketsOk_of_sameVotes h hsame rfl

/-! ### Boundaries -/

/-- A bucket that keeps its signers is as good under the new set as under the old one. -/
theorem bucketOk_of_keeps {b' : Booth} {k : ℕ × BlockHash} {qc : QuorumCertificate}
    (h : BucketOk b k qc) (hdedupe : b'.core.voteDedupe = b.core.voteDedupe)
    (hreached : b'.reached = b.reached) (hlen : (b'.setAt k.1).len = (b.setAt k.1).len)
    (hkeep : ∀ i ∈ qc.signers.iterSet, (b'.setAt k.1).get? i = (b.setAt k.1).get? i) :
    BucketOk b' k qc := by
  have hindex : ∀ i, qc.signers.get i = true → ∀ id,
      (b'.setAt k.1).indexOf id = some i ↔ (b.setAt k.1).indexOf id = some i := by
    intro i hi id
    rw [ValidatorSet.indexOf_eq_some_iff, ValidatorSet.indexOf_eq_some_iff]
    have hget := hkeep i ((h.sized.mem_iterSet i).mpr hi)
    unfold ValidatorSet.get? at hget
    rw [hget]
  have hvoter : ∀ id ∈ b.reached k,
      ∃ i, (b'.setAt k.1).indexOf id = some i ∧ qc.signers.get i = true := by
    intro id hid
    obtain ⟨hd, i, hi⟩ := h.members id hid
    have hbit := (h.bit id i hi).mpr ⟨hd, hid⟩
    exact ⟨i, (hindex i hbit id).mpr hi, hbit⟩
  constructor
  · exact h.view
  · exact h.blockHash
  · exact h.sized
  · rw [h.len, hlen]
  · intro id i hi
    rw [hdedupe, hreached]
    constructor
    · exact fun hbit => (h.bit id i ((hindex i hbit id).mp hi)).mp hbit
    · rintro ⟨-, hid⟩
      obtain ⟨j, hj, hbit⟩ := hvoter id hid
      obtain rfl : j = i := Option.some.inj (hj.symm.trans hi)
      exact hbit
  · intro id hid
    rw [hreached] at hid
    rw [hdedupe]
    obtain ⟨i, hi, -⟩ := hvoter id hid
    exact ⟨(h.members id hid).1, i, hi⟩

theorem insertValidatorBoundary_eq_ok {c c' : HotStuffCore} {vEff : ℕ} {set : ValidatorSet}
    (h : c.insertValidatorBoundary vEff set = .ok c') :
    c'.voteBucket = c.voteBucket ∧ c'.voteDedupe = c.voteDedupe ∧
      c.state.validatorHistory.insertBoundary vEff set = .ok c'.state.validatorHistory := by
  obtain ⟨history, hins, hc⟩ := bind_eq_ok.mp h
  obtain rfl := Except.ok.inj hc
  exact ⟨rfl, rfl, hins⟩

theorem bucketsOk_boundary (h : BucketsOk b) {vEff : ℕ} {set : ValidatorSet}
    (hkeep : KeepsSigners b (.boundary vEff set)) :
    BucketsOk (b.step P (.boundary vEff set)) := by
  simp only [Booth.step]
  cases hins : b.core.insertValidatorBoundary vEff set with
  | error _ => exact h
  | ok c =>
    obtain ⟨hbucket, hdedupe, hhist⟩ := insertValidatorBoundary_eq_ok hins
    apply bucketsOk_of_forall
    intro k qc hk
    have hk' : b.core.voteBucket.get? k = some qc := hbucket ▸ hk
    by_cases hv : vEff ≤ k.1
    · have hset : (⟨c, b.reached⟩ : Booth).setAt k.1 = set :=
        ValidatorSetHistory.setAt_insertBoundary_of_le hhist hv
      obtain ⟨hlen, hget⟩ := hkeep (ValidatorSetHistory.insertBoundary_eq_ok hhist).1 (k, qc)
        ((Table.mem_toList _ _ _).mpr hk') hv
      refine bucketOk_of_keeps (h.bucket k qc hk') hdedupe rfl ?_ ?_ <;> rw [hset]
      · exact hlen
      · exact hget
    · apply bucketOk_congr (h.bucket k qc hk')
      · exact ValidatorSetHistory.setAt_insertBoundary_of_lt hhist (by omega)
      · rfl
      · intro id _
        show c.voteDedupe.get? _ = _ ↔ _
        rw [hdedupe]

theorem bucketsOk_start (selfId : NodeId) (state : HotStuffState) (limits : CacheLimits) :
    BucketsOk (.start selfId state limits) := by
  apply bucketsOk_of_forall
  intro k qc hk
  have hn : Table.get? (∅ : Table (ℕ × BlockHash) QuorumCertificate) k = some qc := hk
  simp at hn

end VoteBuckets

/-- In every run whose boundaries keep the signers of the buckets they reach back to, the
buckets represent the votes received, and no index leaves a bitmap. -/
theorem bucketsOk_of_keepsSigners (P : Primitives) (selfId : NodeId) (state : HotStuffState)
    (limits : CacheLimits) (inputs : List BoothInput)
    (hkeep : Along (Booth.step P) KeepsSigners (Booth.start selfId state limits) inputs) :
    BucketsOk (run (Booth.step P) (Booth.start selfId state limits) inputs) := by
  have hstart : BucketsOk (Booth.start selfId state limits) := by
    apply VoteBuckets.bucketsOk_of_forall
    intro k qc hk
    have hn : Table.get? (∅ : Table (ℕ × BlockHash) QuorumCertificate) k = some qc := hk
    simp at hn
  refine hkeep.invariant ?_ hstart
  intro b input hk hb
  cases input with
  | event order e => exact VoteBuckets.bucketsOk_event hb order e
  | boundary vEff set => exact VoteBuckets.bucketsOk_boundary hb hk

namespace Sample

/-- The vote of validator `id` for the hash `h` in view 5. -/
def boothVote (id : ValidatorId) (h : BlockHash) : BoothInput :=
  .event order (.voteReceived ⟨⟨⟨⟨5, h⟩, id, 0⟩, id⟩, id⟩)

/-- The four validators and a fifth. -/
def fiveValidators : ValidatorSet where
  members := [1, 2, 3, 4, 5]
  weights := [1, 1, 1, 1, 1]
  sorted := by decide
  weights_length := by decide
  weights_ne_zero := by simp
  length_lt := by decide

def booth (inputs : List BoothInput) : Booth :=
  run (Booth.step primitives)
    (.start 1 (.new primitives validators genesis) .unboundedForTests) inputs

/-- The boundary of view 6 lies above the bucket of view 5. -/
theorem bucketsOk_boundary_above :
    (booth [boothVote 4 2, .boundary 6 fiveValidators, boothVote 3 2]).core.voteBucket.size = 1 ∧
    BucketsOk (booth [boothVote 4 2, .boundary 6 fiveValidators, boothVote 3 2]) :=
  ⟨by decide +kernel, bucketsOk_of_keepsSigners primitives 1 _ .unboundedForTests _
    (by decide +kernel)⟩

/-- A boundary at view 3 gives view 5 a longer set than the bitmap of its bucket. -/
theorem not_bucketsOk_boundary_below :
    ¬ BucketsOk (booth [boothVote 4 2, .boundary 3 fiveValidators]) := by
  intro h
  have hlen := (h.bucket (5, 2) ((booth [boothVote 4 2]).core.bucketFor ⟨5, 2⟩)
    (by decide +kernel)).len
  exact absurd hlen (by decide +kernel)

end Sample

end Boule
