import Boule.BitmapAccess
import Boule.Dispatch.Ingress
import Boule.HotStuff.KeptQcs
import Boule.HotStuff.Progress
import Boule.HotStuff.Votes

/-! What a replica puts forward, others admit: the certificates that it forms from admitted votes
or takes from admitted messages pass the checks of ingress at every node with the same histories. -/
namespace Boule

/-- What BLS aggregation promises: partial signatures that verify one by one verify together, in
whatever order they were added, and neither they nor their sums are the empty aggregate. -/
structure Aggregates (P : Primitives) (V : Verifier) : Prop where
  partial_ne : ∀ key message sig, V.blsPartial key message sig = true → sig ≠ emptyAggregate
  sum_ne : ∀ agg sig, agg ≠ emptyAggregate → P.addSignature agg sig ≠ emptyAggregate
  verifies : ∀ message (votes : List (BlsPublicKey × BlsPartialSig)) (keys : List BlsPublicKey),
    votes ≠ [] → (∀ e ∈ votes, V.blsPartial e.1 message e.2 = true) →
    keys.Perm (votes.map Prod.fst) →
    V.fastAggregate (votes.foldl (fun agg e => QuorumCertificate.addPartial P agg e.2)
      emptyAggregate) message keys = true

/-- The BLS key that the histories have for the member of this index of the set of the view. -/
def IngressContext.blsKey (ctx : IngressContext) (view i : ℕ) : Option BlsPublicKey := do
  let history ← ctx.qcVerification.blsKeyHistory
  let id ← (ctx.history.setAt view).members[i]?
  history.keyAt id view

/-- Every member of every set has a BLS key, and no signing key that is not an id of its own has
one of its own. -/
structure IngressContext.Keyed (ctx : IngressContext) : Prop where
  keys : ∀ view i, i < (ctx.history.setAt view).len → ctx.blsKey view i ≠ none
  own : ∀ id view signer history, ctx.keyHistory.keyAt id view = some signer →
    ctx.qcVerification.blsKeyHistory = some history →
    ∀ key, history.keyAt signer view = some key → history.keyAt id view = some key

/-- With a key for every member, the keys of a set are looked up one by one. -/
theorem BlsKeyHistory.getElem?_pubkeysForSet {history : BlsKeyHistory} {set : ValidatorSet}
    {view : ℕ} (h : ∀ id ∈ set.members, history.keyAt id view ≠ none) :
    ∃ keys : List BlsPublicKey, history.pubkeysForSet set view = .ok keys ∧
      ∀ i : ℕ, keys[i]? = set.members[i]?.bind (history.keyAt · view) := by
  unfold pubkeysForSet
  generalize set.members = members at h ⊢
  induction members with
  | nil => exact ⟨[], rfl, fun i => rfl⟩
  | cons id members ih =>
    obtain ⟨keys, hkeys, hget⟩ := ih fun id hid => h id (List.mem_cons_of_mem _ hid)
    obtain ⟨key, hkey⟩ := Option.ne_none_iff_exists'.mp (h id (List.mem_cons_self ..))
    refine ⟨key :: keys, ?_, fun i => ?_⟩
    · rw [List.mapM_cons, hkeys, hkey]
      rfl
    · cases i with
      | zero => exact hkey.symm
      | succ i => exact hget i

/-- The certificate holds just these partial signatures, each of the member of its index. -/
structure HoldsShares (P : Primitives) (V : Verifier) (ctx : IngressContext)
    (qc : QuorumCertificate) (shares : List (ℕ × BlsPartialSig)) : Prop where
  wellFormed : qc.signers.isWellFormed = true
  len : qc.signers.len = (ctx.history.setAt qc.view).len
  bits : ∀ i, qc.signers.get i = true ↔ i ∈ shares.map Prod.fst
  nodup : (shares.map Prod.fst).Nodup
  signatures : qc.signatures =
    shares.foldl (fun agg s => QuorumCertificate.addPartial P agg s.2) emptyAggregate
  signed : ∀ s ∈ shares, ∃ key ∈ ctx.blsKey qc.view s.1,
    V.blsPartial key (votePreimage qc.view qc.blockHash ctx.chainId) s.2 = true

namespace HoldsShares
variable {P : Primitives} {V : Verifier} {ctx : IngressContext} {qc : QuorumCertificate}
  {shares : List (ℕ × BlsPartialSig)} {i : ℕ} {sig : BlsPartialSig}

theorem new (view : ℕ) (blockHash : BlockHash) :
    HoldsShares P V ctx (.new view blockHash (ctx.history.setAt view).len) [] where
  wellFormed := by
    refine SignerBitmap.isWellFormed_iff.mpr ⟨SignerBitmap.sized_new _, fun i _ => ?_⟩
    simp [QuorumCertificate.new, SignerBitmap.new, SignerBitmap.rawBit,
      SignerBitmap.testBit_eq_getLsbD]
  len := rfl
  bits := fun i => by simp [QuorumCertificate.new, SignerBitmap.get_new]
  nodup := List.nodup_nil
  signatures := rfl
  signed := fun s hs => absurd hs List.not_mem_nil

/-- A vote that counts adds its share; one that is there already changes nothing. -/
theorem add (h : HoldsShares P V ctx qc shares) (hi : i < qc.signers.len) {key : BlsPublicKey}
    (hkey : ctx.blsKey qc.view i = some key)
    (hsig : V.blsPartial key (votePreimage qc.view qc.blockHash ctx.chainId) sig = true) :
    ∃ shares', HoldsShares P V ctx (qc.addBlsPartial P i sig) shares' := by
  unfold QuorumCertificate.addBlsPartial
  split_ifs with hset
  · exact ⟨shares, h⟩
  · have hsized := (SignerBitmap.isWellFormed_iff.mp h.wellFormed).1
    have hfresh : i ∉ shares.map Prod.fst := fun hmem => hset ((h.bits i).mpr hmem)
    refine ⟨shares ++ [(i, sig)], ?_, ?_, ?_, ?_, ?_, ?_⟩
    · exact SignerBitmap.isWellFormed_set h.wellFormed hi
    · rw [SignerBitmap.set_len]
      exact h.len
    · intro j
      rw [SignerBitmap.get_set _ i j hi hsized, Bool.or_eq_true, decide_eq_true_eq, h.bits j,
        List.map_append, List.mem_append, List.map_singleton, List.mem_singleton, or_comm]
    · rw [List.map_append, List.map_singleton]
      exact h.nodup.append (List.nodup_singleton i)
        (List.disjoint_singleton.mpr hfresh)
    · rw [List.foldl_append, ← h.signatures]
      rfl
    · intro s hs
      rcases List.mem_append.mp hs with hs | hs
      · exact h.signed s hs
      · obtain rfl := List.mem_singleton.mp hs
        exact ⟨key, hkey, hsig⟩

/-- The sum of partial signatures is not the empty aggregate. -/
theorem signatures_ne (h : HoldsShares P V ctx qc shares) (hagg : Aggregates P V)
    (hne : shares ≠ []) : qc.signatures ≠ emptyAggregate := by
  have hstep : ∀ (agg : BlsAggregate) (s : ℕ × BlsPartialSig), s ∈ shares →
      QuorumCertificate.addPartial P agg s.2 ≠ emptyAggregate := by
    intro agg s hs
    obtain ⟨key, -, hsig⟩ := h.signed s hs
    unfold QuorumCertificate.addPartial
    split_ifs with hempty
    · exact hagg.partial_ne key _ _ hsig
    · exact hagg.sum_ne agg s.2 hempty
  rw [h.signatures]
  obtain ⟨before, s, rfl⟩ := List.eq_nil_or_concat shares |>.resolve_left hne
  rw [List.concat_eq_append, List.foldl_append]
  exact hstep _ s (by simp)

theorem perm_iterSet (h : HoldsShares P V ctx qc shares) :
    qc.signers.iterSet.Perm (shares.map Prod.fst) := by
  have hsized := (SignerBitmap.isWellFormed_iff.mp h.wellFormed).1
  refine (List.perm_ext_iff_of_nodup qc.signers.nodup_iterSet h.nodup).mpr fun i => ?_
  rw [hsized.mem_iterSet, h.bits i]

theorem signerCount_eq (h : HoldsShares P V ctx qc shares) : qc.signerCount = shares.length := by
  rw [QuorumCertificate.signerCount, SignerBitmap.count_eq_length_iterSet h.wellFormed,
    h.perm_iterSet.length_eq, List.length_map]

/-- The certificate passes the form check of new views. -/
theorem isWellFormed (h : HoldsShares P V ctx qc shares) (hagg : Aggregates P V) :
    qc.isWellFormed (ctx.history.setAt qc.view) = true := by
  have hcount : qc.signers.count = shares.length := h.signerCount_eq
  unfold QuorumCertificate.isWellFormed
  rw [if_neg (by simp [h.len, h.wellFormed]), hcount]
  by_cases hne : shares = []
  · have hempty : qc.signatures = emptyAggregate := by
      rw [h.signatures, hne]
      rfl
    rw [hne, hempty]
    rfl
  · have hsome := h.signatures_ne hagg hne
    have hlength : shares.length ≠ 0 := fun h0 => hne (List.length_eq_zero_iff.mp h0)
    simp [hsome, hlength]

/-- The certificate verifies under the keys of the set of its view. -/
theorem aggregateVerifies (h : HoldsShares P V ctx qc shares) (hagg : Aggregates P V)
    (hkeyed : ctx.Keyed) (hne : shares ≠ []) :
    AggregateVerifies V qc ctx.history ctx.qcVerification ctx.chainId := by
  obtain ⟨s, hs⟩ := List.exists_mem_of_ne_nil _ hne
  obtain ⟨history, hhistory⟩ : ∃ history, ctx.qcVerification.blsKeyHistory = some history := by
    obtain ⟨key, hkey, -⟩ := h.signed s hs
    obtain ⟨history, hhistory, -⟩ := Option.bind_eq_some_iff.mp hkey
    exact ⟨history, hhistory⟩
  have hblsKey : ∀ i, ctx.blsKey qc.view i =
      (ctx.history.setAt qc.view).members[i]?.bind (history.keyAt · qc.view) := fun i => by
    unfold IngressContext.blsKey
    rw [hhistory]
    rfl
  have hall : ∀ id ∈ (ctx.history.setAt qc.view).members, history.keyAt id qc.view ≠ none := by
    intro id hid hnone
    obtain ⟨i, hi⟩ := List.getElem?_of_mem hid
    refine hkeyed.keys qc.view i (List.getElem?_eq_some_iff.mp hi).1 ?_
    rw [hblsKey, hi]
    exact hnone
  obtain ⟨keys, hkeys, hget⟩ := BlsKeyHistory.getElem?_pubkeysForSet hall
  simp only [← hblsKey] at hget
  refine ⟨history, keys, hhistory, hkeys, ?_⟩
  have hlen : qc.signers.len = keys.length := by
    rw [h.len, BlsKeyHistory.length_of_pubkeysForSet hkeys]
  have hcount : qc.signers.count ≠ 0 := fun h0 => by
    rw [← QuorumCertificate.signerCount, h.signerCount_eq] at h0
    exact hne (List.length_eq_zero_iff.mp h0)
  have hkey : ∀ s ∈ shares, ctx.blsKey qc.view s.1 = some ((ctx.blsKey qc.view s.1).getD 0) ∧
      V.blsPartial ((ctx.blsKey qc.view s.1).getD 0)
        (votePreimage qc.view qc.blockHash ctx.chainId) s.2 = true := by
    intro s hs
    obtain ⟨key, hk, hsig⟩ := h.signed s hs
    rw [Option.mem_def.mp hk]
    exact ⟨rfl, hsig⟩
  have hperm : (qc.signers.iterSet.filterMap (keys[·]?)).Perm
      (shares.map fun s => (ctx.blsKey qc.view s.1).getD 0) := by
    refine (h.perm_iterSet.filterMap _).trans (.of_eq ?_)
    rw [List.filterMap_map, ← List.filterMap_eq_map]
    refine List.filterMap_congr fun s hs => ?_
    rw [Function.comp_apply, hget]
    exact (hkey s hs).1
  have hsigned : ∀ e ∈ shares.map fun s => ((ctx.blsKey qc.view s.1).getD 0, s.2),
      V.blsPartial e.1 (votePreimage qc.view qc.blockHash ctx.chainId) e.2 = true := by
    intro e he
    obtain ⟨s, hs, rfl⟩ := List.mem_map.mp he
    exact (hkey s hs).2
  have hfast := hagg.verifies _ _ _ (by simpa using hne) hsigned
    (by simpa [Function.comp_def] using hperm)
  rw [List.foldl_map, ← h.signatures] at hfast
  unfold verifyAggregate
  refine bind_eq_ok.mpr ⟨(), require_eq_ok.mpr (decide_eq_true hlen), ?_⟩
  rw [if_neg hcount]
  have hnonempty := h.signatures_ne hagg hne
  exact bind_eq_ok.mpr ⟨(), require_eq_ok.mpr (decide_eq_true hnonempty), require_eq_ok.mpr hfast⟩

end HoldsShares

/-! ### Admitted events -/

section
variable {P : Primitives} {V : Verifier} {ctx : IngressContext} {sender : NodeId}
  {msg : WireMessage} {ds : List Dispatch} {e : Event}

/-- What an event of the core that ingress hands on comes from. -/
theorem event_of_ingress (h : ingressWireWithQcVerification P V ctx sender msg = .ok ds)
    (he : .safety e ∈ ds) :
    (∃ verified, e = .proposalReceived verified) ∨
      (∃ variant, e = .voteReceived variant ∧
        ingressVote V ctx variant.signed.value (some variant.bls) = .ok [.safety e]) ∨
      ∃ verified, e = .newViewReceived verified ∧
        verified.value.payload.highQc.isWellFormed
          (ctx.history.setAt verified.value.payload.highQc.view) = true := by
  cases msg with
  | proposal signed =>
    obtain ⟨id, rfl, -⟩ := ingressProposal_eq_ok h
    simp only [List.mem_cons, List.not_mem_nil, or_false] at he
    rcases he with he | he | he
    · exact .inl ⟨_, Dispatch.safety.inj he⟩
    · cases he
    · cases he
  | vote signed bls =>
    have hvote : ingressVote V ctx signed bls = .ok ds := h
    obtain ⟨id, -, h⟩ := bind_eq_ok.mp h
    obtain ⟨_, -, h⟩ := bind_eq_ok.mp h
    obtain ⟨_, -, h⟩ := bind_eq_ok.mp h
    obtain ⟨sig, hsig, h⟩ := bind_eq_ok.mp h
    obtain rfl := okOr_eq_ok.mp hsig
    obtain rfl := Except.ok.inj h
    obtain rfl := Dispatch.safety.inj (List.mem_singleton.mp he)
    exact .inr (.inl ⟨_, rfl, hvote⟩)
  | newView signed =>
    obtain ⟨id, -, h⟩ := bind_eq_ok.mp h
    obtain ⟨_, -, h⟩ := bind_eq_ok.mp h
    obtain ⟨_, hform, h⟩ := bind_eq_ok.mp h
    obtain ⟨_, -, h⟩ := bind_eq_ok.mp h
    obtain rfl := Except.ok.inj h
    simp only [List.mem_cons, List.not_mem_nil, or_false] at he
    rcases he with he | he
    · obtain rfl := Dispatch.safety.inj he
      exact .inr (.inr ⟨_, rfl, require_eq_ok.mp hform⟩)
    · cases he
  | timeoutVote signed =>
    obtain rfl := ingressTimeoutVote_eq_ok h
    cases List.mem_singleton.mp he
  | blockResponse signed =>
    obtain ⟨_, -, h⟩ := bind_eq_ok.mp h
    obtain rfl := Except.ok.inj h
    cases List.mem_singleton.mp he
  | blockRangeResponse signed =>
    obtain ⟨_, -, h⟩ := bind_eq_ok.mp h
    obtain rfl := Except.ok.inj h
    cases List.mem_singleton.mp he
  | equivocationEvidence proof =>
    simp only [ingressWireWithQcVerification, ingressEquivocationEvidence] at h
    split at h
    · obtain rfl := Except.ok.inj h
      cases List.mem_singleton.mp he
    · cases h
  | _ =>
    obtain rfl := Except.ok.inj h
    cases List.mem_singleton.mp he

/-- An admitted vote carries a partial signature under the key of its member. -/
theorem blsKey_of_ingressVote (hkeyed : ctx.Keyed) {variant : VoteVariant} {i : ℕ}
    (h : ingressVote V ctx variant.signed.value (some variant.bls) =
      .ok [.safety (.voteReceived variant)])
    (hi : (ctx.history.setAt variant.signed.value.payload.view).indexOf
      variant.signed.signerValidatorId = some i) :
    ∃ key, ctx.blsKey variant.signed.value.payload.view i = some key ∧
      V.blsPartial key (votePreimage variant.signed.value.payload.view
        variant.signed.value.payload.blockHash ctx.chainId) variant.bls = true := by
  obtain ⟨id, hsigner, h⟩ := bind_eq_ok.mp h
  obtain ⟨_, -, h⟩ := bind_eq_ok.mp h
  obtain ⟨_, hpartial, h⟩ := bind_eq_ok.mp h
  obtain ⟨_, -, h⟩ := bind_eq_ok.mp h
  have hid : id = variant.signed.signerValidatorId := by
    have hevent := Event.voteReceived.inj (Dispatch.safety.inj (List.cons.inj (Except.ok.inj h)).1)
    rw [← hevent]
  subst hid
  have hactive : ctx.keyHistory.keyAt variant.signed.signerValidatorId
      variant.signed.value.payload.view = some variant.signed.value.signer := by
    obtain ⟨stableId, -, hsigner⟩ := bind_eq_ok.mp hsigner
    obtain ⟨_, -, hsigner⟩ := bind_eq_ok.mp hsigner
    obtain ⟨active, hkey, hsigner⟩ := bind_eq_ok.mp hsigner
    obtain ⟨_, hsame, hsigner⟩ := bind_eq_ok.mp hsigner
    rw [← Except.ok.inj hsigner, okOr_eq_ok.mp hkey, of_decide_eq_true (require_eq_ok.mp hsame)]
  obtain ⟨_, hsig, hpartial⟩ := bind_eq_ok.mp hpartial
  obtain rfl := Option.some.inj (okOr_eq_ok.mp hsig)
  obtain ⟨history, hhistory, hpartial⟩ := bind_eq_ok.mp hpartial
  obtain ⟨key, hkey, hpartial⟩ := bind_eq_ok.mp hpartial
  have hown := hkeyed.own _ _ _ history hactive (okOr_eq_ok.mp hhistory) key (okOr_eq_ok.mp hkey)
  refine ⟨key, ?_, require_eq_ok.mp hpartial⟩
  unfold IngressContext.blsKey
  rw [okOr_eq_ok.mp hhistory, (ValidatorSet.indexOf_eq_some_iff _ _ _).mp hi]
  exact hown

variable (P V ctx) in
/-- The event is a view change or comes with a message that ingress admits. -/
def Event.Delivered (e : Event) : Prop :=
  (∃ v, e = .pacemakerAdvance v) ∨ ∃ sender msg ds,
    ingressWireWithQcVerification P V ctx sender msg = .ok ds ∧ .safety e ∈ ds

/-! ### The buckets -/

namespace HotStuffCore
variable {c : HotStuffCore}

variable (P V ctx) in
/-- Every bucket holds the partial signatures that were added to it. -/
structure Gathers (c : HotStuffCore) : Prop where
  history : c.state.validatorHistory = ctx.history
  bucket : ∀ {k qc}, c.voteBucket.get? k = some qc →
    (qc.view, qc.blockHash) = k ∧ ∃ shares, HoldsShares P V ctx qc shares

theorem Gathers.same {c' : HotStuffCore} (h : c.Gathers P V ctx) (hs : SameVotes c c') :
    c'.Gathers P V ctx where
  history := hs.validatorHistory.trans h.history
  bucket := by
    rw [hs.voteBucket]
    exact h.bucket

theorem Gathers.bucketFor (h : c.Gathers P V ctx) (vote : Vote) :
    (c.bucketFor vote).view = vote.view ∧ (c.bucketFor vote).blockHash = vote.blockHash ∧
      ∃ shares, HoldsShares P V ctx (c.bucketFor vote) shares := by
  unfold HotStuffCore.bucketFor
  cases hk : c.voteBucket.get? (vote.view, vote.blockHash) with
  | none =>
    refine ⟨rfl, rfl, [], ?_⟩
    rw [h.history]
    exact .new vote.view vote.blockHash
  | some qc =>
    obtain ⟨hkey, hholds⟩ := h.bucket hk
    exact ⟨congrArg Prod.fst hkey, congrArg Prod.snd hkey, hholds⟩

/-- An admitted vote leaves the buckets so; a certificate that it completes holds a quorum. -/
theorem Gathers.recordVote (h : c.Gathers P V ctx) (hkeyed : ctx.Keyed) {variant : VoteVariant}
    (hvote : ingressVote V ctx variant.signed.value (some variant.bls) =
      .ok [.safety (.voteReceived variant)]) :
    (c.recordVote P variant).1.Gathers P V ctx ∧ ∀ qc ∈ (c.recordVote P variant).2.2,
      qc.view = variant.signed.value.payload.view ∧
      qc.hasQuorum (ctx.history.setAt qc.view) = true ∧
      ∃ shares, HoldsShares P V ctx qc shares := by
  have hstate := (recordVote_frame P c variant).1.state
  rcases recordVote_cases P c variant with ⟨-, i, hrecorded⟩ | ⟨-, hsame, hnone⟩
  · obtain ⟨hview, hhash, shares, hholds⟩ := h.bucketFor variant.signed.value.payload
    have hi := h.history ▸ hrecorded.index
    obtain ⟨key, hkey, hsig⟩ := blsKey_of_ingressVote hkeyed hvote hi
    have hlt : i < (c.bucketFor variant.signed.value.payload).signers.len := by
      rw [hholds.len, hview]
      exact ValidatorSet.indexOf_lt hi
    obtain ⟨shares', hadded⟩ := hholds.add hlt (hview ▸ hkey) (by rwa [hview, hhash])
    refine ⟨⟨by rw [hstate]; exact h.history, fun {k qc} hk => ?_⟩, fun qc hqc => ?_⟩
    · by_cases hself : k = (variant.signed.value.payload.view,
          variant.signed.value.payload.blockHash)
      · rw [hself, hrecorded.bucket] at hk
        rw [hself, ← Option.some.inj hk]
        refine ⟨?_, shares', hadded⟩
        rw [QuorumCertificate.addBlsPartial_view, QuorumCertificate.addBlsPartial_blockHash,
          hview, hhash]
      · exact h.bucket (hrecorded.bucket_other k qc hself hk)
    · obtain ⟨heq, hquorum⟩ := hrecorded.formed qc hqc
      have hqcview : qc.view = variant.signed.value.payload.view := by
        rw [heq, QuorumCertificate.addBlsPartial_view, hview]
      rw [h.history] at hquorum
      exact ⟨hqcview, hqcview ▸ hquorum, shares', heq ▸ hadded⟩
  · rw [hsame, hnone]
    exact ⟨h, fun qc hqc => by cases hqc⟩

theorem Gathers.step (h : c.Gathers P V ctx) (hkeyed : ctx.Keyed) (order : IterOrder)
    (hvote : ∀ variant, e = .voteReceived variant →
      ingressVote V ctx variant.signed.value (some variant.bls) = .ok [.safety e]) :
    (c.step P order e).1.Gathers P V ctx := by
  have hsame := sameVotes_step P c order e
  cases e with
  | voteReceived variant => exact (h.recordVote hkeyed (hvote variant rfl)).1.same hsame
  | pacemakerAdvance v =>
    have hevicted : (c.evictVoteBucketsBelow v).Gathers P V ctx :=
      ⟨h.history, fun hk => h.bucket (Table.get?_of_retain hk)⟩
    exact hevicted.same hsame
  | proposalReceived verified => exact h.same hsame
  | newViewReceived verified => exact h.same hsame

/-- One step of a core that is fed from ingress. -/
theorem Keeps.next {Q : QuorumCertificate → Prop} (h : c.Keeps Q) (hg : c.Gathers P V ctx)
    (hkeyed : ctx.Keyed) {input : IterOrder × Event}
    (hdelivered : input.2.Delivered P V ctx) (hbrings : ∀ qc ∈ bringsQcs input.2, Q qc)
    (hholds : ∀ variant qc shares, input.2 = .voteReceived variant → HoldsShares P V ctx qc shares →
      qc.view = variant.signed.value.payload.view →
      qc.hasQuorum (ctx.history.setAt qc.view) = true → Q qc) :
    (c.next P input).Gathers P V ctx ∧ Sends Q (c.step P input.1 input.2) := by
  have hvote : ∀ variant, input.2 = .voteReceived variant →
      ingressVote V ctx variant.signed.value (some variant.bls) = .ok [.safety input.2] := by
    intro variant he
    rcases hdelivered with ⟨v, hv⟩ | ⟨sender, msg, ds, hok, hmem⟩
    · rw [he] at hv
      cases hv
    · rcases event_of_ingress hok hmem with ⟨_, hp⟩ | ⟨variant', hv, hin⟩ | ⟨_, hn, -⟩
      · rw [he] at hp
        cases hp
      · obtain rfl := Event.voteReceived.inj (he.symm.trans hv)
        exact hin
      · rw [he] at hn
        cases hn
  refine ⟨hg.step hkeyed input.1 hvote, h.step hbrings fun variant he qc hqc => ?_⟩
  obtain ⟨hview, hquorum, shares, hshares⟩ :=
    (hg.recordVote hkeyed (he ▸ hvote variant he)).2 qc hqc
  exact hholds variant qc shares he hshares hview hquorum

/-- A run of a core that is fed from ingress keeps and sends certificates of a kind, if messages
bring such and quorums of votes form such. -/
theorem Keeps.run {Q : QuorumCertificate → Prop} {inputs : List (IterOrder × Event)}
    (h : c.Keeps Q) (hg : c.Gathers P V ctx) (hkeyed : ctx.Keyed)
    (hdelivered : ∀ input ∈ inputs, input.2.Delivered P V ctx)
    (hbrings : ∀ input ∈ inputs, ∀ qc ∈ bringsQcs input.2, Q qc)
    (hholds : ∀ input ∈ inputs, ∀ variant qc shares, input.2 = .voteReceived variant →
      HoldsShares P V ctx qc shares → qc.view = variant.signed.value.payload.view →
      qc.hasQuorum (ctx.history.setAt qc.view) = true → Q qc) :
    Sends Q (Boule.run (HotStuffCore.next P) c inputs, c.runActions P inputs) := by
  induction inputs generalizing c with
  | nil => exact ⟨h, fun nv hnv => absurd hnv List.not_mem_nil⟩
  | cons input inputs ih =>
    have hin : input ∈ input :: inputs := List.mem_cons_self ..
    obtain ⟨hgnext, hkeeps, hsends⟩ :=
      h.next hg hkeyed (hdelivered input hin) (hbrings input hin) (hholds input hin)
    obtain ⟨hrest, hmore⟩ := ih hkeeps hgnext
      (fun i hi => hdelivered i (List.mem_cons_of_mem _ hi))
      (fun i hi => hbrings i (List.mem_cons_of_mem _ hi))
      (fun i hi => hholds i (List.mem_cons_of_mem _ hi))
    refine ⟨hrest, fun nv hnv => ?_⟩
    rcases List.mem_append.mp hnv with hnv | hnv
    · exact hsends nv hnv
    · exact hmore nv hnv

end HotStuffCore

theorem HotStuffCore.keeps_withLimits {Q : QuorumCertificate → Prop} (selfId : NodeId)
    {state : HotStuffState} (limits : CacheLimits) (hnone : state.highQc = none) :
    (HotStuffCore.withLimits selfId state limits).Keeps Q := by
  constructor
  · intro qc hqc
    have hnew : state.highQc = some qc := hqc
    rw [hnone] at hnew
    cases hnew
  · intro k signed hs
    have hempty : Table.get? (∅ : Table BlockHash (Signed Proposal)) k = some signed := hs
    rw [Table.get?_empty] at hempty
    cases hempty

theorem HotStuffCore.gathers_withLimits (selfId : NodeId) {state : HotStuffState}
    (limits : CacheLimits) (hhistory : state.validatorHistory = ctx.history) :
    (HotStuffCore.withLimits selfId state limits).Gathers P V ctx := by
  refine ⟨hhistory, fun {k qc} hk => ?_⟩
  have hempty : Table.get? (∅ : Table (ℕ × BlockHash) QuorumCertificate) k = some qc := hk
  rw [Table.get?_empty] at hempty
  cases hempty

/-- Every node with these histories lets the new view in, whichever member has signed it. -/
def IngressContext.LetsIn (V : Verifier) (ctx : IngressContext) (nv : NewView) : Prop :=
  ∀ (signed : Signed NewView) (id : ValidatorId), signed.payload = nv →
    verifySignerAt signed.signer nv.highQc.view ctx.history ctx.keyHistory = .ok id →
    verifySig V .newView signed ctx.chainId = .ok () →
    ingressNewView V ctx signed =
      .ok [.safety (.newViewReceived ⟨signed, id⟩), .pacemaker (.onQc nv.highQc.view)]

/-- The certificates of delivered messages have passed the check of ingress. -/
theorem Event.Delivered.verifyQc (h : e.Delivered P V ctx) :
    ∀ qc ∈ HotStuffCore.bringsQcs e,
      verifyQcIfRequested V qc ctx.history ctx.qcVerification ctx.chainId = .ok () := by
  intro qc hqc
  rcases h with ⟨v, rfl⟩ | ⟨sender, msg, ds, hok, hmem⟩
  · cases hqc
  · cases e with
    | proposalReceived verified =>
      obtain rfl := List.mem_singleton.mp hqc
      exact verifyQcIfRequested_of_admits hok hmem (.justify verified)
    | newViewReceived verified =>
      obtain rfl := List.mem_singleton.mp hqc
      exact verifyQcIfRequested_of_admits hok hmem (.highQc verified)
    | voteReceived variant => cases hqc
    | pacemakerAdvance v => cases hqc

/-- Those of new views are well formed as well. -/
theorem Event.Delivered.isWellFormed (h : e.Delivered P V ctx)
    (hproposal : ∀ signed ∈ e.proposal?, signed.payload.justify.isWellFormed
      (ctx.history.setAt signed.payload.justify.view) = true) :
    ∀ qc ∈ HotStuffCore.bringsQcs e,
      qc.isWellFormed (ctx.history.setAt qc.view) = true := by
  intro qc hqc
  cases e with
  | proposalReceived verified =>
    obtain rfl := List.mem_singleton.mp hqc
    exact hproposal verified.value rfl
  | newViewReceived verified =>
    obtain rfl := List.mem_singleton.mp hqc
    rcases h with ⟨v, hv⟩ | ⟨sender, msg, ds, hok, hmem⟩
    · cases hv
    · rcases event_of_ingress hok hmem with ⟨_, hp⟩ | ⟨_, hv, -⟩ | ⟨verified', hn, hform⟩
      · cases hp
      · cases hv
      · obtain rfl := Event.newViewReceived.inj hn
        exact hform
  | voteReceived variant => cases hqc
  | pacemakerAdvance v => cases hqc

end

/-- Between two changes of the set and the keys, a replica that is fed from ingress only ever holds
a high certificate that verifies at every node with the same histories, whichever votes formed it;
and if no proposal has brought a malformed one, every node lets its new views in. -/
theorem certificates_admitted (P : Primitives) (V : Verifier) (ctx : IngressContext)
    (hagg : Aggregates P V) (hkeyed : ctx.Keyed) (selfId : NodeId) (state : HotStuffState)
    (limits : CacheLimits) (hhistory : state.validatorHistory = ctx.history)
    (hnone : state.highQc = none) (inputs : List (IterOrder × Event))
    (hdelivered : ∀ input ∈ inputs, input.2.Delivered P V ctx)
    (hviews : ∀ input ∈ inputs, ∀ variant, input.2 = .voteReceived variant →
      0 < variant.signed.value.payload.view) :
    (∀ qc ∈ (run (HotStuffCore.next P) (.withLimits selfId state limits) inputs).state.highQc,
      verifyQcIfRequested V qc ctx.history ctx.qcVerification ctx.chainId = .ok ()) ∧
    ((∀ input ∈ inputs, ∀ signed ∈ input.2.proposal?, signed.payload.justify.isWellFormed
        (ctx.history.setAt signed.payload.justify.view) = true) →
      ∀ nv, .broadcast (.newView nv) ∈
          (HotStuffCore.withLimits selfId state limits).runActions P inputs →
        ctx.LetsIn V nv) := by
  have hkeeps := fun Q => HotStuffCore.keeps_withLimits (Q := Q) selfId limits hnone
  have hgathers := HotStuffCore.gathers_withLimits (P := P) (V := V) selfId limits hhistory
  have hverify := (hkeeps _).run (Q := fun qc =>
      verifyQcIfRequested V qc ctx.history ctx.qcVerification ctx.chainId = .ok ())
    hgathers hkeyed hdelivered (fun input hi => (hdelivered input hi).verifyQc) (by
      intro input hi variant qc shares he hholds hview hquorum
      have hpos := hviews input hi variant he
      refine (verifyQcIfRequested_eq_ok (hview ▸ hpos)).mpr (.inr ?_)
      refine hholds.aggregateVerifies hagg hkeyed fun hempty => ?_
      have hcount := QuorumCertificate.signerCount_ne_zero_of_hasQuorum hquorum
      rw [hholds.signerCount_eq, hempty] at hcount
      exact hcount rfl)
  refine ⟨hverify.1.high, fun hforms nv hnv => ?_⟩
  have hform := (hkeeps _).run (Q := fun qc =>
      qc.isWellFormed (ctx.history.setAt qc.view) = true)
    hgathers hkeyed hdelivered
    (fun input hi => (hdelivered input hi).isWellFormed (hforms input hi))
    (fun input hi variant qc shares he hholds _ _ => hholds.isWellFormed hagg)
  intro signed id hpayload hsigner hsig
  subst hpayload
  refine bind_eq_ok.mpr ⟨id, hsigner, bind_eq_ok.mpr ⟨(), hsig, ?_⟩⟩
  refine bind_eq_ok.mpr ⟨(), require_eq_ok.mpr (hform.2 _ hnv), ?_⟩
  exact bind_eq_ok.mpr ⟨(), hverify.2 _ hnv, rfl⟩

namespace Sample

/-- The partial signature under a key is the key, and an aggregate is their sum. -/
def adding : Verifier := { verifier with
  blsPartial := fun key _ sig => decide (sig = key ∧ key ≠ 0)
  fastAggregate := fun agg _ keys => decide (agg = keys.sum) }

theorem aggregates_adding : Aggregates primitives adding where
  partial_ne := by
    intro key message sig h
    obtain ⟨rfl, hne⟩ := of_decide_eq_true h
    exact hne
  sum_ne := fun agg sig h => Nat.ne_of_gt (Nat.add_pos_left (Nat.pos_of_ne_zero h) sig)
  verifies := by
    intro message votes keys _ hvotes hperm
    have hadd : ∀ (agg : ℕ) (e : BlsPublicKey × BlsPartialSig),
        QuorumCertificate.addPartial primitives agg e.2 = agg + e.2 := by
      intro agg e
      unfold QuorumCertificate.addPartial
      split_ifs with h
      · rw [h]
        exact (Nat.zero_add _).symm
      · rfl
    have hsame : votes.map Prod.snd = votes.map Prod.fst := by
      refine List.map_congr_left fun e he => ?_
      exact (of_decide_eq_true (hvotes e he)).1
    have hsum : ∀ (votes : List (BlsPublicKey × BlsPartialSig)) (agg : ℕ),
        votes.foldl (fun agg e => QuorumCertificate.addPartial primitives agg e.2) agg =
          agg + (votes.map Prod.snd).sum := by
      intro votes
      induction votes with
      | nil => exact fun agg => rfl
      | cons e votes ih =>
        intro agg
        rw [List.foldl_cons, ih, hadd, List.map_cons, List.sum_cons, Nat.add_assoc]
    refine decide_eq_true ?_
    rw [hsum, hsame, hperm.sum_eq]
    exact Nat.zero_add _

theorem keyed_context : context.Keyed where
  keys := by
    intro view i hi
    have hset : context.history.setAt view = validators :=
      ValidatorSetHistory.setAt_fromGenesis validators view
    have hkeys : ∀ id ∈ validators.members, ∃ key,
        (BlsKeyHistory.withGenesis [(1, 11), (2, 12), (3, 13), (4, 14)]).byStableId.get? id =
          some [⟨0, key⟩] := by
      intro id hid
      have hcases : id = 1 ∨ id = 2 ∨ id = 3 ∨ id = 4 := by simpa [validators] using hid
      rcases hcases with rfl | rfl | rfl | rfl
      · exact ⟨11, by decide⟩
      · exact ⟨12, by decide⟩
      · exact ⟨13, by decide⟩
      · exact ⟨14, by decide⟩
    rw [hset] at hi
    obtain ⟨key, hkey⟩ := hkeys _ (List.getElem_mem hi)
    have hlookup : context.blsKey view i = some key := by
      unfold IngressContext.blsKey
      rw [hset]
      simp [context, List.getElem?_eq_getElem hi, BlsKeyHistory.keyAt, hkey, keyAt]
    rw [hlookup]
    exact Option.some_ne_none key
  own := by
    intro id view signer history hactive _ key hkey
    have hown : ∀ e ∈ context.keyHistory.byStableId.toList, e.2 = [⟨0, e.1⟩] := by decide
    obtain ⟨entries, hentries, hsigner⟩ := Option.bind_eq_some_iff.mp hactive
    have hself := hown (id, entries) ((Table.mem_toList _ _ _).mpr hentries)
    simp only at hself
    have hid : id = signer := by simpa [hself, keyAt] using hsigner
    rw [hid]
    exact hkey

def ballotFor (id : ValidatorId) : VoteVariant :=
  ⟨⟨⟨⟨1, d₁.block.hash primitives⟩, id, 0⟩, id⟩, 10 + id⟩

def proposedFirst : Signed Proposal := ⟨d₁, 1, 0⟩

/-- A proposal, the votes of three members, one of them twice, and the next view. -/
def ballotEvents : List Event :=
  received d₁ :: [4, 1, 4, 2].map (fun id => .voteReceived (ballotFor id)) ++
    [.pacemakerAdvance 2]

def threeBallots : List (IterOrder × Event) := ballotEvents.map fun e => (order, e)

def signedByFour : QuorumCertificate := { certify d₁.block [0, 1, 3] with signatures := 37 }

theorem delivered_ballotEvents : ∀ e ∈ ballotEvents, e.Delivered primitives adding context := by
  have hproposal : ingressWireWithQcVerification primitives adding context 1
      (.proposal proposedFirst) = .ok [.safety (received d₁), .pacemaker (.onProposalReceived 1),
        .pacemaker (.onQc 0)] := by decide +kernel
  have hvotes : ∀ id ∈ [4, 1, 4, 2], ingressWireWithQcVerification primitives adding context id
      (.vote (ballotFor id).signed.value (some (10 + id))) =
        .ok [.safety (.voteReceived (ballotFor id))] := by decide +kernel
  intro e he
  rcases List.mem_append.mp he with he | he
  · rcases List.mem_cons.mp he with rfl | he
    · exact .inr ⟨_, _, _, hproposal, List.mem_cons_self ..⟩
    · obtain ⟨id, hid, rfl⟩ := List.mem_map.mp he
      exact .inr ⟨_, _, _, hvotes id hid, List.mem_singleton_self _⟩
  · exact .inl ⟨2, List.mem_singleton.mp he⟩

theorem newView_let_in :
    .broadcast (.newView ⟨signedByFour⟩) ∈ freshCore.runActions primitives threeBallots ∧
      context.LetsIn adding ⟨signedByFour⟩ := by
  have hsent : .broadcast (.newView ⟨signedByFour⟩) ∈
      freshCore.runActions primitives threeBallots := by decide +kernel
  have hviews : ∀ e ∈ ballotEvents, ∀ variant, e = .voteReceived variant →
      0 < variant.signed.value.payload.view := by
    intro e he variant hv
    subst hv
    have hmem : variant = ballotFor 4 ∨ variant = ballotFor 1 ∨ variant = ballotFor 2 := by
      simp [ballotEvents, received] at he
      tauto
    rcases hmem with rfl | rfl | rfl
    · decide
    · decide
    · decide
  refine ⟨hsent, ?_⟩
  have hall := certificates_admitted primitives adding context aggregates_adding keyed_context 1
    (.new primitives validators straightPool.genesis) .unboundedForTests rfl rfl threeBallots
    (by simpa [threeBallots] using delivered_ballotEvents) (by simpa [threeBallots] using hviews)
  exact hall.2 (by decide +kernel) _ hsent

end Sample

end Boule
