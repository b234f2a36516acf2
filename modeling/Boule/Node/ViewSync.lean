import Boule.Lib.ViewSync
import Boule.NextMembers
import Boule.Node.QuorumWeights
import Boule.Node.TimeoutEvictions
import Boule.Node.Timeouts

/-! Validators that keep each other's views together by their timeout votes, between two changes of
the set and of the keys. -/
namespace Boule
open ConsensusNode

namespace ValidatorSet

/-- The weight of a validator, none for a stranger. -/
def weightOf (vs : ValidatorSet) (id : ValidatorId) : ℕ := (vs.weightFor id).getD 0

/-- The weight of some validators, strangers included. -/
abbrev weightIn (vs : ValidatorSet) (A : Finset ValidatorId) : ℕ := Quorum.weight vs.weightOf A

theorem weightIn_le (vs : ValidatorSet) (A : Finset ValidatorId) :
    vs.weightIn A ≤ vs.totalWeight := by
  have hle := vs.heldBy_le A.toList
  rwa [vs.heldBy_eq_sum, Finset.toList_toFinset] at hle

/-- Timeout votes of the quorum threshold end a view, those of the honesty threshold begin it. -/
def viewRule (vs : ValidatorSet) : ViewRule ValidatorId where
  ends := fun A => vs.quorumWeightThreshold ≤ vs.weightIn A
  begins := fun A => vs.honestyWeightThreshold ≤ vs.weightIn A
  ends_mono := fun hsub h => h.trans (Quorum.weight_mono _ hsub)
  begins_mono := fun hsub h => h.trans (Quorum.weight_mono _ hsub)
  begins_of_ends := fun h => vs.thresholds.2.1.trans h
  not_begins_empty := Nat.not_le_of_lt vs.thresholds.1

end ValidatorSet

/-- The node knows the members of the set, each under one key. -/
structure ConsensusNode.KnowsKeys (vs : ValidatorSet) (keyOf : ValidatorId → NodeId)
    (n : ConsensusNode) : Prop where
  set : n.validatorSet = vs
  keys : ∀ id ∈ vs.members, ∀ key, n.validatorKeyHistory.validatorFor key = some id ↔
    key = keyOf id

/-! ### What one vote does to the view -/

section
variable {n : ConsensusNode} {capacity : ℕ} {buckets : Table ℕ TimeoutBucket}
  {signed : Signed TimeoutVote} {trusted : Bool} {id : ValidatorId}

variable (capacity trusted) in
/-- A counted vote tells the pacemaker of a round sync, then of the certificate. -/
theorem pacemakerEvents_counted (h : n.countsFor buckets signed = some id) :
    (n.onTimeoutVote capacity buckets signed trusted).2.filterMap TimeoutEffect.pacemakerEvent? =
      (if bucketWeight buckets signed.payload.view < n.validatorSet.honestyWeightThreshold ∧
          n.validatorSet.honestyWeightThreshold ≤ n.addedWeight buckets signed id then
        [.onRoundSync signed.payload.view] else []) ++
      (if n.validatorSet.quorumWeightThreshold ≤ n.addedWeight buckets signed id then
        [.onTimeoutCert signed.payload.view] else []) := by
  simp only [onTimeoutVote_eq capacity trusted h]
  have hadded : (((buckets.get? signed.payload.view).getD .empty).add signed trusted
      ((n.validatorSet.weightFor id).getD 0)).signerWeight = n.addedWeight buckets signed id := rfl
  have hbefore : ((buckets.get? signed.payload.view).getD .empty).signerWeight =
      bucketWeight buckets signed.payload.view := rfl
  generalize TimeoutBucket.add _ _ _ _ = added at hadded ⊢
  rw [hadded, hbefore]
  have hadopt : ∀ best : Option QuorumCertificate,
      (best.toList.map TimeoutEffect.adopt).filterMap TimeoutEffect.pacemakerEvent? = [] := by
    intro best
    cases best <;> rfl
  have hcross : (crossing n.validatorSet signed.payload.view
      (bucketWeight buckets signed.payload.view)
      (n.addedWeight buckets signed id)).filterMap TimeoutEffect.pacemakerEvent? =
        if bucketWeight buckets signed.payload.view < n.validatorSet.honestyWeightThreshold ∧
            n.validatorSet.honestyWeightThreshold ≤ n.addedWeight buckets signed id then
          [.onRoundSync signed.payload.view] else [] := by
    unfold crossing
    split_ifs <;> rfl
  by_cases hq : n.addedWeight buckets signed id < n.validatorSet.quorumWeightThreshold
  · simp only [hq, if_true, Nat.not_le_of_lt hq, if_false, List.append_nil]
    exact hcross
  · simp only [hq, if_false, Nat.le_of_not_lt hq, if_true, List.filterMap_append, hcross, hadopt,
      List.append_nil]
    rfl

theorem currentView_onRoundSync (n : ConsensusNode) (w : ℕ) :
    (n.stepPacemaker (.onRoundSync w)).currentView = max n.currentView w := by
  unfold ConsensusNode.stepPacemaker Pacemaker.step currentView
  simp only
  by_cases hw : w ≤ n.pacemaker.currentView
  · rw [if_pos hw, max_eq_left hw]
  · rw [if_neg hw, max_eq_right (Nat.le_of_not_le hw)]
    rfl

theorem currentView_onTimeoutCert (n : ConsensusNode) {w : ℕ} (hw : w + 1 < 2 ^ 64) :
    (n.stepPacemaker (.onTimeoutCert w)).currentView = max n.currentView (w + 1) := by
  unfold ConsensusNode.stepPacemaker Pacemaker.step currentView
  simp only
  by_cases hlt : w < n.pacemaker.currentView
  · rw [if_pos hlt, max_eq_left hlt]
  · rw [if_neg hlt, max_eq_right (by omega)]
    exact Nat.mod_eq_of_lt hw

theorem currentView_onQc (n : ConsensusNode) {w : ℕ} (hw : w + 1 < 2 ^ 64) :
    (n.stepPacemaker (.onQc w)).currentView = max n.currentView (w + 1) := by
  unfold ConsensusNode.stepPacemaker Pacemaker.step currentView
  simp only
  by_cases hlt : w < n.pacemaker.currentView
  · rw [if_pos hlt, max_eq_left hlt]
  · rw [if_neg hlt]
    show (w + 1) % 2 ^ 64 = _
    rw [Nat.mod_eq_of_lt hw, max_eq_right (by omega)]

variable (capacity trusted) in
/-- The view after a vote that is counted. -/
theorem currentView_counted (h : n.countsFor buckets signed = some id)
    (hwrap : n.validatorSet.quorumWeightThreshold ≤ n.addedWeight buckets signed id →
      signed.payload.view + 1 < 2 ^ 64) :
    (((n.onTimeoutVote capacity buckets signed trusted).2.filterMap
        TimeoutEffect.pacemakerEvent?).foldl ConsensusNode.stepPacemaker n).currentView =
      if n.validatorSet.quorumWeightThreshold ≤ n.addedWeight buckets signed id then
        signed.payload.view + 1
      else if bucketWeight buckets signed.payload.view < n.validatorSet.honestyWeightThreshold ∧
          n.validatorSet.honestyWeightThreshold ≤ n.addedWeight buckets signed id then
        signed.payload.view
      else n.currentView := by
  have hv := (countsFor_eq_some h).2.2.1
  rw [pacemakerEvents_counted capacity trusted h, List.foldl_append]
  by_cases hq : n.validatorSet.quorumWeightThreshold ≤ n.addedWeight buckets signed id
  · rw [if_pos hq, if_pos hq, List.foldl_cons, List.foldl_nil,
      currentView_onTimeoutCert _ (hwrap hq)]
    refine max_eq_right (le_trans ?_ (Nat.le_succ _))
    split_ifs
    · rw [List.foldl_cons, List.foldl_nil, currentView_onRoundSync, max_eq_right hv]
    · exact hv
  · rw [if_neg hq, if_neg hq, List.foldl_nil]
    split_ifs with hcross
    · rw [List.foldl_cons, List.foldl_nil, currentView_onRoundSync, max_eq_right hv]
    · rfl

end

/-! ### What a teller has heard -/

/-- The log after the vote, which is for the member whose key has signed it, if there is one. -/
structure Hears (vs : ValidatorSet) (keyOf : ValidatorId → NodeId) (signed : Signed TimeoutVote)
    (l l' : ViewLog ValidatorId) : Prop where
  told : l'.told = l.told
  voters : ∀ u id, id ∈ l'.voters u ↔ id ∈ l.voters u ∨
    id ∈ vs.members ∧ keyOf id = signed.signer ∧ signed.payload.view = u

theorem Hears.le {vs : ValidatorSet} {keyOf : ValidatorId → NodeId} {signed : Signed TimeoutVote}
    {l l' : ViewLog ValidatorId} (h : Hears vs keyOf signed l l') : l ≤ l' :=
  ⟨fun u id hid => (h.voters u id).mpr (.inl hid), fun _ hu => h.told ▸ hu⟩

namespace TimeoutTeller

/-- The buckets hold votes that were heard, each of another member. -/
structure Minuted (vs : ValidatorSet) (keyOf : ValidatorId → NodeId) (s : TimeoutTeller)
    (l : ViewLog ValidatorId) : Prop extends s.Weighed vs where
  keys : ∀ id ∈ vs.members, ∀ key, s.node.validatorKeyHistory.validatorFor key = some id ↔
    key = keyOf id
  signers : ∀ v b, s.timeoutBuckets.get? v = some b →
    b.signers = (s.countedIn v).map CountedVote.signer
  heard : ∀ v, ∀ c ∈ s.countedIn v,
    c.stableId ∈ vs.members ∧ c.signer = keyOf c.stableId ∧ c.stableId ∈ l.voters v
  once : ∀ v, ((s.countedIn v).map CountedVote.stableId).Nodup

/-- The teller is in the view that its log takes it to, and the buckets hold every vote heard for
this view and those after it. -/
structure Settled (vs : ValidatorSet) (keyOf : ValidatorId → NodeId) (s : TimeoutTeller)
    (l : ViewLog ValidatorId) : Prop extends s.Minuted vs keyOf l where
  complete : ∀ v, s.node.currentView ≤ v → ∀ id ∈ l.voters v,
    id ∈ (s.countedIn v).map CountedVote.stableId
  places : l.Places vs.viewRule s.node.currentView

section
variable {vs : ValidatorSet} {keyOf : ValidatorId → NodeId} {s : TimeoutTeller}
  {l l' : ViewLog ValidatorId} {signed : Signed TimeoutVote} {id : ValidatorId}

/-- The votes in a bucket weigh what their validators do. -/
theorem Minuted.weigh (h : s.Minuted vs keyOf l) (v : ℕ) :
    vs.weigh (s.countedIn v) =
      vs.weightIn ((s.countedIn v).map CountedVote.stableId).toFinset := by
  unfold ValidatorSet.weigh ValidatorSet.weightIn Quorum.weight
  rw [List.sum_toFinset _ (h.once v), List.map_map]
  rfl

theorem Minuted.bucketWeight_eq (h : s.Minuted vs keyOf l) (v : ℕ) :
    bucketWeight s.timeoutBuckets v =
      vs.weightIn ((s.countedIn v).map CountedVote.stableId).toFinset := by
  have hlt := vs.totalWeight_lt
  have hle := vs.weightIn_le ((s.countedIn v).map CountedVote.stableId).toFinset
  rw [h.weight v, h.weigh v]
  exact min_eq_left (by omega)

/-- A counted vote is the first one of a member in its bucket. -/
theorem Minuted.counts (h : s.Minuted vs keyOf l)
    (hc : s.node.countsFor s.timeoutBuckets signed = some id) :
    id ∈ vs.members ∧ signed.signer = keyOf id ∧
      id ∉ (s.countedIn signed.payload.view).map CountedVote.stableId := by
  obtain ⟨hid, hcontains, -, hnew⟩ := countsFor_eq_some hc
  have hmem : id ∈ vs.members := by
    rw [h.set] at hcontains
    exact (vs.contains_iff id).mp hcontains
  have hkey := (h.keys id hmem signed.signer).mp hid
  refine ⟨hmem, hkey, ?_⟩
  intro hin
  obtain ⟨c, hcin, rfl⟩ := List.mem_map.mp hin
  have hsigner : signed.signer ∈ (s.countedIn signed.payload.view).map CountedVote.signer := by
    rw [hkey, ← (h.heard _ c hcin).2.1]
    exact List.mem_map_of_mem hcin
  cases hb : s.timeoutBuckets.get? signed.payload.view with
  | none =>
    have hempty : s.countedIn signed.payload.view = [] :=
      if_neg (by simp [Table.containsKey, hb])
    rw [hempty] at hcin
    cases hcin
  | some b =>
    rw [← h.signers _ b hb] at hsigner
    exact hnew b hb hsigner

theorem Minuted.addedWeight_eq (h : s.Minuted vs keyOf l)
    (hc : s.node.countsFor s.timeoutBuckets signed = some id) :
    s.node.addedWeight s.timeoutBuckets signed id = vs.weightIn
      (insert id ((s.countedIn signed.payload.view).map CountedVote.stableId).toFinset) := by
  have hlt := vs.totalWeight_lt
  have hnew := (h.counts hc).2.2
  have hle := vs.weightIn_le
    (insert id ((s.countedIn signed.payload.view).map CountedVote.stableId).toFinset)
  have hsum : vs.weightIn
      (insert id ((s.countedIn signed.payload.view).map CountedVote.stableId).toFinset) =
        bucketWeight s.timeoutBuckets signed.payload.view + vs.weightOf id := by
    rw [h.bucketWeight_eq, Nat.add_comm]
    exact Finset.sum_insert (by rwa [List.mem_toFinset])
  rw [hsum] at hle ⊢
  rw [ConsensusNode.addedWeight, h.set]
  exact min_eq_left (hle.trans (by omega))

theorem Minuted.eq_of_key (h : s.Minuted vs keyOf l) {id' : ValidatorId} (hid : id ∈ vs.members)
    (hid' : id' ∈ vs.members) (hkey : keyOf id = keyOf id') : id = id' := by
  have hfor := (h.keys id hid (keyOf id)).mpr rfl
  exact Option.some.inj (hfor.symm.trans ((h.keys id' hid' _).mpr hkey))

variable {P : Primitives} {R : HistoryPrimitives} {chainId : ChainId} {minVEffDelay capacity : ℕ}
  {trusted : Bool} {input : TellerInput}

/-- A step that does nothing to the buckets and the keys leaves what is known of them. -/
theorem Minuted.idle (h : s.Minuted vs keyOf l) (hle : l ≤ l') (hr : ∀ m, input ≠ .restore m)
    (hbuckets : (s.step P R chainId minVEffDelay capacity input).timeoutBuckets = s.timeoutBuckets)
    (hcounted : (s.step P R chainId minVEffDelay capacity input).counted = s.counted)
    (hkeys : (s.step P R chainId minVEffDelay capacity input).node.validatorKeyHistory =
      s.node.validatorKeyHistory) :
    (s.step P R chainId minVEffDelay capacity input).Minuted vs keyOf l' := by
  have hsame : ∀ v, (s.step P R chainId minVEffDelay capacity input).countedIn v = s.countedIn v :=
    fun v => by rw [countedIn, countedIn, hbuckets, hcounted]
  refine ⟨h.toWeighed.step hr, ?_, ?_, ?_, ?_⟩
  · rw [hkeys]
    exact h.keys
  · intro v b hb
    rw [hsame]
    exact h.signers v b (hbuckets ▸ hb)
  · intro v c hc
    obtain ⟨hmem, hkey, hvoter⟩ := h.heard v c (hsame v ▸ hc)
    exact ⟨hmem, hkey, hle.1 v hvoter⟩
  · intro v
    rw [hsame]
    exact h.once v

theorem validatorKeyHistory_stepPacemaker (n : ConsensusNode) (events : List PacemakerEvent) :
    (events.foldl ConsensusNode.stepPacemaker n).validatorKeyHistory = n.validatorKeyHistory := by
  induction events generalizing n with
  | nil => rfl
  | cons event events ih => rw [List.foldl_cons, ih]; rfl

/-- The signers of the bucket of a view are those of the votes listed in it. -/
theorem Minuted.bucketOr (h : s.Minuted vs keyOf l) (v : ℕ) :
    ((s.timeoutBuckets.get? v).getD .empty).signers = (s.countedIn v).map CountedVote.signer := by
  cases hb : s.timeoutBuckets.get? v with
  | none =>
    rw [countedIn, if_neg (by simp [Table.containsKey, hb])]
    rfl
  | some b => exact h.signers v b hb

theorem countedIn_of_get? {v : ℕ} {b : TimeoutBucket} (hb : s.timeoutBuckets.get? v = some b) :
    s.countedIn v = s.counted v :=
  if_pos ((Table.containsKey_iff _ _).mpr ⟨b, hb⟩)

theorem Minuted.counted (h : s.Minuted vs keyOf l) (hl : Hears vs keyOf signed l l')
    (hc : s.node.countsFor s.timeoutBuckets signed = some id) :
    (s.step P R chainId minVEffDelay capacity (.timeoutVote signed trusted)).Minuted vs keyOf
      l' := by
  obtain ⟨hmem, hkey, hnew⟩ := h.counts hc
  have hvotes : ∀ v, s.votesFor v (.timeoutVote signed trusted) =
      if signed.payload.view = v then [⟨id, signed.signer⟩] else [] := by
    intro v
    simp [votesFor, hc]
  have hin : ∀ v, (s.step P R chainId minVEffDelay capacity
      (.timeoutVote signed trusted)).countedIn v = [] ∨
        (s.step P R chainId minVEffDelay capacity (.timeoutVote signed trusted)).countedIn v =
          s.votesFor v (.timeoutVote signed trusted) ++ s.countedIn v := by
    intro v
    obtain ⟨hkept, hlost⟩ := countedIn_step P R chainId minVEffDelay capacity s v
      (.timeoutVote signed trusted)
    by_cases hgone : s.Ousts capacity v (.timeoutVote signed trusted) ∨
        s.Closes capacity v (.timeoutVote signed trusted)
    · exact .inl (hlost hgone)
    · exact .inr (hkept hgone)
  refine ⟨h.toWeighed.step (by simp), ?_, ?_, ?_, ?_⟩
  · have hkeys : (s.step P R chainId minVEffDelay capacity
        (.timeoutVote signed trusted)).node.validatorKeyHistory = s.node.validatorKeyHistory :=
      validatorKeyHistory_stepPacemaker _ _
    rw [hkeys]
    exact h.keys
  · intro v b hb
    obtain ⟨added, hadded, hbuckets, -, -⟩ := onTimeoutVote_of_some capacity trusted hc
    have hb' := hbuckets v b hb
    have hcounted : (s.step P R chainId minVEffDelay capacity
        (.timeoutVote signed trusted)).counted = Function.update s.counted signed.payload.view
          (⟨id, signed.signer⟩ :: s.countedIn signed.payload.view) := by
      simp only [step, noteVote, hc]
    rw [countedIn_of_get? hb, hcounted]
    by_cases hv : v = signed.payload.view
    · rw [if_pos hv] at hb'
      rw [hv, Function.update_self, hb', hadded, List.map_cons, ← h.bucketOr]
      rfl
    · rw [if_neg hv] at hb'
      rw [Function.update_of_ne hv, ← countedIn_of_get? hb']
      exact h.signers v b hb'
  · intro v c hcin
    rcases hin v with hnone | hsome
    · rw [hnone] at hcin
      cases hcin
    · rw [hsome, hvotes, List.mem_append] at hcin
      rcases hcin with hcin | hcin
      · split_ifs at hcin with hv
        · rw [List.mem_singleton] at hcin
          rw [hcin]
          exact ⟨hmem, hkey, (hl.voters v id).mpr (.inr ⟨hmem, hkey.symm, hv⟩)⟩
        · cases hcin
      · obtain ⟨hm, hk, hvoter⟩ := h.heard v c hcin
        exact ⟨hm, hk, hl.le.1 v hvoter⟩
  · intro v
    rcases hin v with hnone | hsome
    · rw [hnone]
      exact List.nodup_nil
    · rw [hsome, hvotes]
      split_ifs with hv
      · exact List.nodup_cons.mpr ⟨hv ▸ hnew, h.once v⟩
      · exact h.once v

variable (P R chainId minVEffDelay capacity trusted) in
/-- A vote that is not counted leaves the view and the buckets. -/
theorem idle_of_uncounted (hc : s.node.countsFor s.timeoutBuckets signed = none) :
    (s.step P R chainId minVEffDelay capacity (.timeoutVote signed trusted)).node = s.node ∧
      (s.step P R chainId minVEffDelay capacity (.timeoutVote signed trusted)).timeoutBuckets =
        s.timeoutBuckets ∧
      (s.step P R chainId minVEffDelay capacity (.timeoutVote signed trusted)).counted =
        s.counted := by
  obtain ⟨hbuckets, heffects⟩ := onTimeoutVote_of_none capacity trusted hc
  have hquiet : (s.node.onTimeoutVote capacity s.timeoutBuckets signed trusted).2.filterMap
      TimeoutEffect.pacemakerEvent? = [] := by
    refine List.filterMap_eq_nil_iff.mpr fun e he => ?_
    obtain ⟨peer, highQc, rfl⟩ := heffects e he
    rfl
  refine ⟨?_, hbuckets, ?_⟩
  · simp only [step, hquiet]
    rfl
  · simp only [step, noteVote, hc]

theorem Minuted.vote (h : s.Minuted vs keyOf l) (hl : Hears vs keyOf signed l l') :
    (s.step P R chainId minVEffDelay capacity (.timeoutVote signed trusted)).Minuted vs keyOf
      l' := by
  cases hc : s.node.countsFor s.timeoutBuckets signed with
  | some id => exact h.counted hl hc
  | none =>
    obtain ⟨hnode, hbuckets, hcounted⟩ := idle_of_uncounted P R chainId minVEffDelay
      capacity trusted hc
    exact h.idle hl.le (by simp) hbuckets hcounted (by rw [hnode])

/-- The bucket of a counted vote weighs no more than all who were heard for its view. -/
theorem Minuted.addedWeight_le (h : s.Minuted vs keyOf l) (hl : Hears vs keyOf signed l l')
    (hc : s.node.countsFor s.timeoutBuckets signed = some id) :
    s.node.addedWeight s.timeoutBuckets signed id ≤
      vs.weightIn (l'.voters signed.payload.view) := by
  obtain ⟨hmem, hkey, -⟩ := h.counts hc
  rw [h.addedWeight_eq hc]
  refine Quorum.weight_mono _ fun x hx => ?_
  rcases Finset.mem_insert.mp hx with rfl | hx
  · exact (hl.voters _ _).mpr (.inr ⟨hmem, hkey.symm, rfl⟩)
  · obtain ⟨c, hcin, rfl⟩ := List.mem_map.mp (List.mem_toFinset.mp hx)
    exact hl.le.1 _ (h.heard _ c hcin).2.2

/-- The view after a vote is one that the votes heard take a party to. -/
theorem Minuted.follows (h : s.Minuted vs keyOf l) (hl : Hears vs keyOf signed l l')
    (hwrap : vs.viewRule.ends (l'.voters signed.payload.view) → signed.payload.view + 1 < 2 ^ 64)
    {w : ℕ} (hw : w ≤ (s.step P R chainId minVEffDelay capacity
      (.timeoutVote signed trusted)).node.currentView) :
    w ≤ s.node.currentView ∨ l'.Pushes vs.viewRule w := by
  cases hc : s.node.countsFor s.timeoutBuckets signed with
  | none =>
    rw [(idle_of_uncounted P R chainId minVEffDelay capacity trusted hc).1] at hw
    exact .inl hw
  | some id =>
    have hle := h.addedWeight_le hl hc
    have hview := currentView_counted capacity trusted hc
      fun hq => hwrap ((h.set ▸ hq).trans hle)
    have hw' : w ≤ _ := hw.trans_eq hview
    split_ifs at hw' with hquorum hcross
    · exact .inr (.inl ⟨_, hw', .inr ((h.set ▸ hquorum).trans hle)⟩)
    · exact .inr (.inr ⟨_, hw', (h.set ▸ hcross.2).trans hle⟩)
    · exact .inl hw'

/-- A vote that is not counted says nothing new about the views that are not over. -/
theorem Minuted.nothing_new (h : s.Minuted vs keyOf l) (hl : Hears vs keyOf signed l l')
    (hc : s.node.countsFor s.timeoutBuckets signed = none) {v : ℕ}
    (hv : s.node.currentView ≤ v) : l'.voters v = l.voters v := by
  ext id
  rw [hl.voters]
  refine or_iff_left_of_imp ?_
  rintro ⟨hmem, hkey, rfl⟩
  have hfor := (h.keys id hmem signed.signer).mpr hkey.symm
  by_contra hnew
  have hin : id ∉ (s.countedIn signed.payload.view).map CountedVote.stableId := by
    intro hin
    obtain ⟨c, hcin, rfl⟩ := List.mem_map.mp hin
    exact hnew (h.heard _ c hcin).2.2
  have hsigner : signed.signer ∉ (s.countedIn signed.payload.view).map CountedVote.signer := by
    intro hsigner
    obtain ⟨c, hcin, hcs⟩ := List.mem_map.mp hsigner
    obtain ⟨hm, hk, -⟩ := h.heard _ c hcin
    rw [h.eq_of_key hmem hm (hkey.trans (hcs.symm.trans hk))] at hin
    exact hin (List.mem_map_of_mem hcin)
  have hcounts : s.node.countsFor s.timeoutBuckets signed = some id := by
    have hcontains : s.node.validatorSet.contains id = true := by
      rw [h.set]
      exact (vs.contains_iff id).mpr hmem
    have hfresh : ((s.timeoutBuckets.get? signed.payload.view).any
        fun b => signed.signer ∈ b.signers) = false := by
      rw [← h.bucketOr] at hsigner
      cases hb : s.timeoutBuckets.get? signed.payload.view with
      | none => rfl
      | some b =>
        rw [hb] at hsigner
        exact decide_eq_false hsigner
    unfold countsFor
    simp [hfor, hcontains, hv, hfresh]
  rw [hc] at hcounts
  cases hcounts

/-- A counted vote adds its validator to the voters of its view, all of whom are in the bucket. -/
theorem Settled.voters_of_counts (h : s.Settled vs keyOf l) (hl : Hears vs keyOf signed l l')
    (hc : s.node.countsFor s.timeoutBuckets signed = some id) :
    l.voters signed.payload.view =
        ((s.countedIn signed.payload.view).map CountedVote.stableId).toFinset ∧
      l'.voters signed.payload.view = insert id (l.voters signed.payload.view) ∧
        ∀ u, u ≠ signed.payload.view → l'.voters u = l.voters u := by
  obtain ⟨hmem, hkey, -⟩ := h.counts hc
  refine ⟨?_, ?_, ?_⟩
  · ext x
    rw [List.mem_toFinset]
    refine ⟨h.complete _ (countsFor_eq_some hc).2.2.1 x, fun hx => ?_⟩
    obtain ⟨c, hcin, rfl⟩ := List.mem_map.mp hx
    exact (h.heard _ c hcin).2.2
  · ext x
    rw [hl.voters, Finset.mem_insert, or_comm]
    refine or_congr_left ⟨?_, ?_⟩
    · rintro ⟨hx, hxkey, -⟩
      exact h.eq_of_key hx hmem (hxkey.trans hkey)
    · rintro rfl
      exact ⟨hmem, hkey.symm, rfl⟩
  · intro u hu
    ext x
    rw [hl.voters]
    exact or_iff_left fun hx => hu hx.2.2.symm

instance (vs : ValidatorSet) : DecidablePred vs.viewRule.ends := fun A =>
  inferInstanceAs (Decidable (vs.quorumWeightThreshold ≤ vs.weightIn A))

instance (vs : ValidatorSet) : DecidablePred vs.viewRule.begins := fun A =>
  inferInstanceAs (Decidable (vs.honestyWeightThreshold ≤ vs.weightIn A))

/-- The view after a counted vote, by all that was heard for the view of the vote. -/
theorem Settled.currentView_vote (h : s.Settled vs keyOf l) (hl : Hears vs keyOf signed l l')
    (hc : s.node.countsFor s.timeoutBuckets signed = some id)
    (hwrap : vs.viewRule.ends (l'.voters signed.payload.view) →
      signed.payload.view + 1 < 2 ^ 64) :
    (s.step P R chainId minVEffDelay capacity (.timeoutVote signed trusted)).node.currentView =
      if vs.viewRule.ends (l'.voters signed.payload.view) then signed.payload.view + 1
      else if vs.viewRule.begins (l'.voters signed.payload.view) then signed.payload.view
      else s.node.currentView := by
  obtain ⟨hold, hnew, -⟩ := h.voters_of_counts hl hc
  have hafter : s.node.addedWeight s.timeoutBuckets signed id =
      vs.weightIn (l'.voters signed.payload.view) := by
    rw [h.addedWeight_eq hc, hnew, hold]
  have hbefore : bucketWeight s.timeoutBuckets signed.payload.view =
      vs.weightIn (l.voters signed.payload.view) := by
    rw [h.bucketWeight_eq, hold]
  have hview := currentView_counted capacity trusted hc
    fun hq => hwrap (by rwa [h.set, hafter] at hq)
  rw [h.set, hafter, hbefore] at hview
  refine Eq.trans hview (if_congr Iff.rfl rfl ?_)
  by_cases hbegins : vs.viewRule.begins (l'.voters signed.payload.view)
  · rw [if_pos hbegins]
    refine ite_eq_left_iff.mpr fun hcrossed => ?_
    -- the bucket had crossed the threshold before, which has brought the teller here
    have hearlier : vs.viewRule.begins (l.voters signed.payload.view) :=
      Nat.le_of_not_lt fun hlt => hcrossed ⟨hlt, hbegins⟩
    exact Nat.le_antisymm (countsFor_eq_some hc).2.2.1 (h.places.le_of_begins hearlier)
  · rw [if_neg hbegins, if_neg fun hcross => hbegins hcross.2]

/-- The bucket of a view that is not over keeps its votes, and takes in the new one. -/
theorem Settled.countedIn_vote (h : s.Settled vs keyOf l) (hl : Hears vs keyOf signed l l')
    (hc : s.node.countsFor s.timeoutBuckets signed = some id)
    (hwrap : vs.viewRule.ends (l'.voters signed.payload.view) → signed.payload.view + 1 < 2 ^ 64)
    (hroom : ∀ v, s.node.currentView ≤ v → ¬ s.Ousts capacity v (.timeoutVote signed trusted))
    {v : ℕ} (hv : s.node.currentView ≤ v) (hv' : (s.step P R chainId minVEffDelay capacity
      (.timeoutVote signed trusted)).node.currentView ≤ v) :
    (s.step P R chainId minVEffDelay capacity (.timeoutVote signed trusted)).countedIn v =
      s.votesFor v (.timeoutVote signed trusted) ++ s.countedIn v := by
  refine (countedIn_step P R chainId minVEffDelay capacity s v _).1 ?_
  rintro (hout | ⟨w, hvw, hmem⟩)
  · exact hroom v hv hout
  · obtain ⟨-, hcert, -⟩ := onTimeoutVote_counted capacity trusted hc
    obtain ⟨rfl, hquorum⟩ := (hcert w).mp hmem
    obtain ⟨hold, hnew, -⟩ := h.voters_of_counts hl hc
    rw [h.set, h.addedWeight_eq hc, ← hold, ← hnew] at hquorum
    have hends : vs.viewRule.ends (l'.voters signed.payload.view) := hquorum
    rw [h.currentView_vote hl hc hwrap, if_pos hends] at hv'
    omega

/-- A vote takes a teller to the view that all it has heard by then takes a party to, if there is
room for the bucket. -/
theorem Settled.vote (h : s.Settled vs keyOf l) (hl : Hears vs keyOf signed l l')
    (hwrap : vs.viewRule.ends (l'.voters signed.payload.view) → signed.payload.view + 1 < 2 ^ 64)
    (hroom : ∀ v, s.node.currentView ≤ v → ¬ s.Ousts capacity v (.timeoutVote signed trusted)) :
    (s.step P R chainId minVEffDelay capacity (.timeoutVote signed trusted)).Settled vs keyOf
      l' := by
  cases hc : s.node.countsFor s.timeoutBuckets signed with
  | none =>
    obtain ⟨hnode, hbuckets, hcounted⟩ := idle_of_uncounted P R chainId minVEffDelay
      capacity trusted hc
    refine ⟨h.toMinuted.vote hl, ?_, ?_⟩
    · intro v hv x hx
      rw [hnode] at hv
      rw [h.nothing_new hl hc hv] at hx
      rw [countedIn, hbuckets, hcounted]
      exact h.complete v hv x hx
    · rw [hnode]
      exact h.places.stay hl.le hl.told fun u hu => h.nothing_new hl hc hu
  | some id =>
    have hv := (countsFor_eq_some hc).2.2.1
    obtain ⟨-, hnew, hother⟩ := h.voters_of_counts hl hc
    have hplaces := h.places.hear hl.le hl.told hv hother
    rw [← h.currentView_vote (P := P) (R := R) hl hc hwrap] at hplaces
    refine ⟨h.toMinuted.vote hl, ?_, hplaces⟩
    intro v hv' x hx
    have hbefore : s.node.currentView ≤ v :=
      ((hplaces _).mpr (((h.places _).mp le_rfl).imp_right fun hp => hp.mono hl.le)).trans hv'
    rw [h.countedIn_vote hl hc hwrap hroom hbefore hv', List.map_append, List.mem_append]
    by_cases hvu : v = signed.payload.view
    · rw [hvu, hnew, Finset.mem_insert] at hx
      rcases hx with rfl | hx
      · refine .inl ?_
        simp [votesFor, hc, hvu]
      · exact .inr (hvu ▸ h.complete _ hv x hx)
    · rw [hother v hvu] at hx
      exact .inr (h.complete v hbefore x hx)

/-- A step that leaves the buckets takes a teller where its log does. -/
theorem Settled.idle (h : s.Settled vs keyOf l) (hle : l ≤ l') (hr : ∀ m, input ≠ .restore m)
    (hbuckets : (s.step P R chainId minVEffDelay capacity input).timeoutBuckets = s.timeoutBuckets)
    (hcounted : (s.step P R chainId minVEffDelay capacity input).counted = s.counted)
    (hkeys : (s.step P R chainId minVEffDelay capacity input).node.validatorKeyHistory =
      s.node.validatorKeyHistory)
    (hvoters : ∀ u, l'.voters u = l.voters u)
    (hmono : s.node.currentView ≤
      (s.step P R chainId minVEffDelay capacity input).node.currentView)
    (hplaces : l'.Places vs.viewRule
      (s.step P R chainId minVEffDelay capacity input).node.currentView) :
    (s.step P R chainId minVEffDelay capacity input).Settled vs keyOf l' := by
  refine ⟨h.toMinuted.idle hle hr hbuckets hcounted hkeys, ?_, hplaces⟩
  intro v hv x hx
  rw [hvoters] at hx
  rw [countedIn, hbuckets, hcounted]
  exact h.complete v (hmono.trans hv) x hx

end
end TimeoutTeller

end Boule
