import Boule.HotStuff.VoteEvictions
import Boule.Node.TimeoutBuckets

/-! Timeout votes that are thrown out with their bucket, and the certificates lost with them. -/
namespace Boule
open ConsensusNode

/-! ### One vote -/

/-- The bucket that a vote for a new bucket throws out, if it does. -/
def victimView (capacity : ℕ) (buckets : Table ℕ TimeoutBucket) : Option ℕ :=
  buckets.victim capacity fun view _ => view

def bucketWeight (buckets : Table ℕ TimeoutBucket) (view : ℕ) : ℕ :=
  ((buckets.get? view).getD .empty).signerWeight

theorem get?_evictTimeoutBucketsToFitOne (capacity : ℕ) (buckets : Table ℕ TimeoutBucket)
    (v : ℕ) : (evictTimeoutBucketsToFitOne capacity buckets).get? v =
      if victimView capacity buckets = some v then none else buckets.get? v := by
  unfold evictTimeoutBucketsToFitOne victimView Table.victim
  by_cases hsize : buckets.size < capacity
  · simp [hsize]
  · simp only [hsize, if_false]
    cases hv : buckets.minBy fun view _ => view with
    | none => simp
    | some victim =>
      simp only [Option.map_some, Option.some.injEq]
      rw [Table.get?_erase]
      by_cases hk : v = victim.1
      · rw [if_pos hk, if_pos hk.symm]
      · rw [if_neg hk, if_neg (Ne.symm hk)]

theorem get?_openedBuckets_eq (capacity : ℕ) (buckets : Table ℕ TimeoutBucket) (view v : ℕ) :
    (openedBuckets capacity buckets view).get? v =
      if buckets.containsKey view = false ∧ victimView capacity buckets = some v then none
      else buckets.get? v := by
  unfold openedBuckets
  cases buckets.containsKey view with
  | true => simp
  | false => simp [get?_evictTimeoutBucketsToFitOne]

theorem ValidatorSet.thresholds (vs : ValidatorSet) : 0 < vs.honestyWeightThreshold ∧
    vs.honestyWeightThreshold ≤ vs.quorumWeightThreshold ∧
      vs.quorumWeightThreshold < 2 ^ 128 - 1 := by
  have hlt := vs.totalWeight_lt
  unfold honestyWeightThreshold quorumWeightThreshold saturatingMulU128
  split_ifs <;> omega

section
variable {n : ConsensusNode} {capacity : ℕ} {buckets : Table ℕ TimeoutBucket}
  {signed : Signed TimeoutVote} {highQcTrusted : Bool} {id : ValidatorId}

/-- The weight in the bucket of a vote once it is counted. -/
def ConsensusNode.addedWeight (n : ConsensusNode) (buckets : Table ℕ TimeoutBucket)
    (signed : Signed TimeoutVote) (id : ValidatorId) : ℕ :=
  saturatingAddU128 (bucketWeight buckets signed.payload.view)
    ((n.validatorSet.weightFor id).getD 0)

variable (capacity highQcTrusted) in
/-- What a counted vote leaves of the buckets, and which events it fires. -/
theorem onTimeoutVote_counted (h : n.countsFor buckets signed = some id) :
    (∃ added, added.signerWeight = n.addedWeight buckets signed id ∧
      ∀ v, (n.onTimeoutVote capacity buckets signed highQcTrusted).1.get? v =
        if (buckets.containsKey signed.payload.view = false ∧
            victimView capacity buckets = some v) ∨
          (v ≤ signed.payload.view ∧
            n.validatorSet.quorumWeightThreshold ≤ n.addedWeight buckets signed id) then none
        else if v = signed.payload.view then some added else buckets.get? v) ∧
    (∀ v, .timeoutCert v ∈ (n.onTimeoutVote capacity buckets signed highQcTrusted).2 ↔
      v = signed.payload.view ∧
        n.validatorSet.quorumWeightThreshold ≤ n.addedWeight buckets signed id) ∧
    ∀ v, .roundSync v ∈ (n.onTimeoutVote capacity buckets signed highQcTrusted).2 ↔
      v = signed.payload.view ∧
        bucketWeight buckets signed.payload.view < n.validatorSet.honestyWeightThreshold ∧
          n.validatorSet.honestyWeightThreshold ≤ n.addedWeight buckets signed id := by
  have hopened := get?_openedBuckets_eq capacity buckets signed.payload.view
  simp only [onTimeoutVote_eq capacity highQcTrusted h]
  have hadded : (((buckets.get? signed.payload.view).getD .empty).add signed highQcTrusted
      ((n.validatorSet.weightFor id).getD 0)).signerWeight = n.addedWeight buckets signed id := rfl
  have hbefore : ((buckets.get? signed.payload.view).getD .empty).signerWeight =
      bucketWeight buckets signed.payload.view := rfl
  generalize TimeoutBucket.add _ _ _ _ = added at hadded ⊢
  rw [hadded, hbefore]
  have hcross : ∀ v, .roundSync v ∈ crossing n.validatorSet signed.payload.view
      (bucketWeight buckets signed.payload.view) (n.addedWeight buckets signed id) ↔
      v = signed.payload.view ∧
        bucketWeight buckets signed.payload.view < n.validatorSet.honestyWeightThreshold ∧
          n.validatorSet.honestyWeightThreshold ≤ n.addedWeight buckets signed id := by
    intro v
    unfold crossing
    split_ifs with hc <;> simp [hc]
  have hcert := (mem_crossing n.validatorSet signed.payload.view
    (bucketWeight buckets signed.payload.view) (n.addedWeight buckets signed id)).1
  by_cases hq : n.addedWeight buckets signed id < n.validatorSet.quorumWeightThreshold
  · simp only [hq, if_true, Nat.not_le_of_lt hq, and_false, or_false, iff_false]
    refine ⟨⟨added, hadded, fun v => ?_⟩, hcert, hcross⟩
    rw [Table.get?_insert, hopened]
    by_cases hv : v = signed.payload.view
    · have hstays : ¬ (buckets.containsKey signed.payload.view = false ∧
          victimView capacity buckets = some v) := by
        rintro ⟨hnone, hvictim⟩
        rw [hv] at hvictim
        rw [Table.containsKey_of_victim hvictim] at hnone
        cases hnone
      simp [hv, hv ▸ hstays]
    · simp [hv]
  · have hq' := Nat.le_of_not_lt hq
    simp only [hq, if_false, hq', and_true]
    refine ⟨⟨added, hadded, fun v => ?_⟩, fun v => ?_, fun v => ?_⟩
    · rw [Table.get?_retain_key, Table.get?_erase, hopened]
      by_cases hle : v ≤ signed.payload.view
      · simp [hle, Nat.not_lt_of_le hle]
      · simp [hle, Nat.lt_of_not_le hle, (Nat.lt_of_not_le hle).ne']
    · simp [hcert]
    · rw [List.mem_append, List.mem_append, ← hcross]
      simp

end

/-! ### Runs -/

/-- The weight of the votes in the set, each vote on its own. -/
def ValidatorSet.weigh (vs : ValidatorSet) (votes : List CountedVote) : ℕ :=
  (votes.map fun vote => (vs.weightFor vote.stableId).getD 0).sum

/-- The weight with which the bucket of view `w` takes a node past `v`. -/
def ValidatorSet.answerWeight (vs : ValidatorSet) (v w : ℕ) : ℕ :=
  if w = v then vs.quorumWeightThreshold else vs.honestyWeightThreshold

namespace TimeoutTeller

/-- The vote throws the bucket of the view out to make room for its own. -/
def Ousts (capacity v : ℕ) (s : TimeoutTeller) : TellerInput → Prop
  | .timeoutVote signed _ => (s.node.countsFor s.timeoutBuckets signed).isSome = true ∧
    s.timeoutBuckets.containsKey signed.payload.view = false ∧
      victimView capacity s.timeoutBuckets = some v
  | _ => False

instance (capacity v : ℕ) (s : TimeoutTeller) : DecidablePred (s.Ousts capacity v)
  | .timeoutVote _ _ => inferInstanceAs (Decidable (_ ∧ _ ∧ _))
  | .pacemaker _ | .safety .. | .commit _ | .restore _ => inferInstanceAs (Decidable False)

/-- The vote that the input adds to the bucket of the view. -/
def votesFor (v : ℕ) (s : TimeoutTeller) : TellerInput → List CountedVote
  | .timeoutVote signed _ =>
    if signed.payload.view = v then
      (s.node.countsFor s.timeoutBuckets signed).toList.map fun id => ⟨id, signed.signer⟩
    else []
  | _ => []

/-- A timeout certificate for the view or one above it takes its bucket away. -/
def Closes (capacity v : ℕ) (s : TimeoutTeller) (input : TellerInput) : Prop :=
  ∃ w, v ≤ w ∧ .timeoutCert w ∈ s.effects capacity input

/-- The input fires the timeout certificate of the view, or takes the pacemaker above the view. -/
def Leaves (P : Primitives) (R : HistoryPrimitives) (chainId : ChainId)
    (minVEffDelay capacity v : ℕ) (s : TimeoutTeller) (input : TellerInput) : Prop :=
  .timeoutCert v ∈ s.effects capacity input ∨
    (∃ w, v < w ∧ .roundSync w ∈ s.effects capacity input) ∨
      v < (s.step P R chainId minVEffDelay capacity input).node.currentView

/-- An event of the pacemaker alone takes it above the view. -/
def Overtakes (v : ℕ) (s : TimeoutTeller) : TellerInput → Prop
  | .pacemaker event => v < (s.node.stepPacemaker event).currentView
  | _ => False

/-- The input leaves the buckets alone and fires no event of the pacemaker. -/
structure Idles (P : Primitives) (R : HistoryPrimitives) (chainId : ChainId)
    (minVEffDelay capacity : ℕ) (s : TimeoutTeller) (input : TellerInput) : Prop where
  buckets : (s.step P R chainId minVEffDelay capacity input).timeoutBuckets = s.timeoutBuckets
  counted : (s.step P R chainId minVEffDelay capacity input).counted = s.counted
  effects : ∀ e ∈ s.effects capacity input, e.pacemakerEvent? = none
  votes : ∀ v, s.votesFor v input = []
  stays : ∀ v, ¬ s.Ousts capacity v input

section
variable {P : Primitives} {R : HistoryPrimitives} {chainId : ChainId} {minVEffDelay capacity : ℕ}
  {s : TimeoutTeller} {v : ℕ} {input : TellerInput}

variable (P R chainId minVEffDelay capacity s input) in
/-- Only votes that are counted do something to the buckets. -/
theorem idles_or_counts : s.Idles P R chainId minVEffDelay capacity input ∨
    ∃ signed trusted id, input = .timeoutVote signed trusted ∧
      s.node.countsFor s.timeoutBuckets signed = some id := by
  cases input with
  | timeoutVote signed trusted =>
    cases hc : s.node.countsFor s.timeoutBuckets signed with
    | some id => exact .inr ⟨signed, trusted, id, rfl, hc⟩
    | none =>
      obtain ⟨hbuckets, heffects⟩ := onTimeoutVote_of_none capacity trusted hc
      refine .inl ⟨hbuckets, ?_, ?_, ?_, ?_⟩
      · simp only [step, noteVote, hc]
      · intro e he
        obtain ⟨peer, highQc, rfl⟩ := heffects e he
        rfl
      · simp [votesFor, hc]
      · simp [Ousts, hc]
  | commit block =>
    refine .inl ⟨?_, ?_, fun _ he => absurd he List.not_mem_nil, fun _ => rfl, fun _ h => h⟩ <;>
      simp only [step] <;> split <;> rfl
  | _ => exact .inl ⟨rfl, rfl, fun _ he => absurd he List.not_mem_nil, fun _ => rfl, fun _ h => h⟩

theorem Idles.not_closes (h : s.Idles P R chainId minVEffDelay capacity input) :
    ¬ s.Closes capacity v input := by
  rintro ⟨w, -, hmem⟩
  cases h.effects _ hmem

/-- What a step does to the bucket of a view: it is lost, it stays, or a vote comes in. -/
inductive Bucketed (P : Primitives) (R : HistoryPrimitives) (chainId : ChainId)
    (minVEffDelay capacity v : ℕ) (s : TimeoutTeller) (input : TellerInput) : Prop
  | lost (gone : s.Ousts capacity v input ∨ s.Closes capacity v input)
    (weight : bucketWeight (s.step P R chainId minVEffDelay capacity input).timeoutBuckets v = 0)
    (countedIn : (s.step P R chainId minVEffDelay capacity input).countedIn v = [])
  | kept (stays : ¬ (s.Ousts capacity v input ∨ s.Closes capacity v input))
    (votes : s.votesFor v input = [])
    (weight : bucketWeight (s.step P R chainId minVEffDelay capacity input).timeoutBuckets v =
      bucketWeight s.timeoutBuckets v)
    (countedIn : (s.step P R chainId minVEffDelay capacity input).countedIn v = s.countedIn v)
  | filled (stays : ¬ (s.Ousts capacity v input ∨ s.Closes capacity v input))
    {signed : Signed TimeoutVote} {trusted : Bool} {id : ValidatorId}
    (vote : input = .timeoutVote signed trusted) (view : signed.payload.view = v)
    (counts : s.node.countsFor s.timeoutBuckets signed = some id)
    (weight : bucketWeight (s.step P R chainId minVEffDelay capacity input).timeoutBuckets v =
      s.node.addedWeight s.timeoutBuckets signed id)
    (countedIn : (s.step P R chainId minVEffDelay capacity input).countedIn v =
      ⟨id, signed.signer⟩ :: s.countedIn v)

variable (P R chainId minVEffDelay capacity v s input) in
theorem bucketed : s.Bucketed P R chainId minVEffDelay capacity v input := by
  rcases idles_or_counts P R chainId minVEffDelay capacity s input with
    hidle | ⟨signed, trusted, id, rfl, hc⟩
  · refine .kept ?_ (hidle.votes v) ?_ ?_
    · rintro (hout | hcloses)
      · exact hidle.stays v hout
      · exact hidle.not_closes hcloses
    · rw [hidle.buckets]
    · rw [TimeoutTeller.countedIn, hidle.buckets, hidle.counted, TimeoutTeller.countedIn]
  · obtain ⟨⟨added, hadded, hget⟩, hcert, -⟩ := onTimeoutVote_counted capacity trusted hc
    have hlost : (s.Ousts capacity v (.timeoutVote signed trusted) ∨
        s.Closes capacity v (.timeoutVote signed trusted)) ↔
        (s.timeoutBuckets.containsKey signed.payload.view = false ∧
          victimView capacity s.timeoutBuckets = some v) ∨ (v ≤ signed.payload.view ∧
            s.node.validatorSet.quorumWeightThreshold ≤
              s.node.addedWeight s.timeoutBuckets signed id) := by
      refine or_congr ?_ ?_
      · simp [Ousts, hc]
      · unfold Closes effects
        simp only [hcert]
        constructor
        · rintro ⟨w, hle, rfl, hquorum⟩
          exact ⟨hle, hquorum⟩
        · rintro ⟨hle, hquorum⟩
          exact ⟨_, hle, rfl, hquorum⟩
    have hcounted : (s.step P R chainId minVEffDelay capacity
        (.timeoutVote signed trusted)).counted = Function.update s.counted signed.payload.view
          (⟨id, signed.signer⟩ :: s.countedIn signed.payload.view) := by
      simp only [step, noteVote, hc]
    have hnow : (s.step P R chainId minVEffDelay capacity
        (.timeoutVote signed trusted)).timeoutBuckets.get? v = _ := hget v
    by_cases hgone : s.Ousts capacity v (.timeoutVote signed trusted) ∨
        s.Closes capacity v (.timeoutVote signed trusted)
    · rw [if_pos (hlost.mp hgone)] at hnow
      refine .lost hgone ?_ ?_
      · rw [bucketWeight, hnow]
        rfl
      · rw [TimeoutTeller.countedIn, Table.containsKey, hnow]
        rfl
    · rw [if_neg fun h => hgone (hlost.mpr h)] at hnow
      by_cases hv : v = signed.payload.view
      · rw [if_pos hv] at hnow
        refine .filled hgone rfl hv.symm hc ?_ ?_
        · rw [bucketWeight, hnow]
          exact hadded
        · rw [TimeoutTeller.countedIn, if_pos ((Table.containsKey_iff _ _).mpr ⟨added, hnow⟩),
            hcounted, hv, Function.update_self]
      · rw [if_neg hv] at hnow
        refine .kept hgone (if_neg (Ne.symm hv)) ?_ ?_
        · rw [bucketWeight, hnow, bucketWeight]
        · rw [TimeoutTeller.countedIn, Table.containsKey, hnow, hcounted,
            Function.update_of_ne hv, TimeoutTeller.countedIn, Table.containsKey]

variable (P R chainId minVEffDelay capacity v s input) in
/-- What the input leaves of the votes in the bucket of a view. -/
theorem countedIn_step :
    (¬ (s.Ousts capacity v input ∨ s.Closes capacity v input) →
      (s.step P R chainId minVEffDelay capacity input).countedIn v =
        s.votesFor v input ++ s.countedIn v) ∧
    (s.Ousts capacity v input ∨ s.Closes capacity v input →
      (s.step P R chainId minVEffDelay capacity input).countedIn v = []) := by
  cases bucketed P R chainId minVEffDelay capacity s v input with
  | lost gone _ countedIn => exact ⟨fun stays => absurd gone stays, fun _ => countedIn⟩
  | kept stays votes _ countedIn =>
    refine ⟨fun _ => ?_, fun gone => absurd gone stays⟩
    rw [countedIn, votes, List.nil_append]
  | filled stays vote view counts _ countedIn =>
    refine ⟨fun _ => ?_, fun gone => absurd gone stays⟩
    rw [countedIn, vote]
    simp [votesFor, view, counts]

end

/-- What a node in a run knows of its buckets: their weight is that of the votes in them, and
none has reached a quorum. -/
structure Weighed (vs : ValidatorSet) (s : TimeoutTeller) : Prop where
  set : s.node.validatorSet = vs
  weight : ∀ w, bucketWeight s.timeoutBuckets w = min (vs.weigh (s.countedIn w)) (2 ^ 128 - 1)
  quorum : ∀ w, bucketWeight s.timeoutBuckets w < vs.quorumWeightThreshold

section
variable {P : Primitives} {R : HistoryPrimitives} {chainId : ChainId} {minVEffDelay capacity : ℕ}
  {s : TimeoutTeller} {v w : ℕ} {input : TellerInput} {vs : ValidatorSet}

variable (P R chainId minVEffDelay capacity s) in
theorem counting_step (hr : ∀ m, input ≠ .restore m)
    (hv : ∀ signed trusted, input ≠ .timeoutVote signed trusted)
    (hp : ∀ event, input ≠ .pacemaker event) :
    (s.step P R chainId minVEffDelay capacity input).node.counting = s.node.counting := by
  cases input with
  | timeoutVote signed trusted => exact absurd rfl (hv signed trusted)
  | pacemaker event => exact absurd rfl (hp event)
  | safety order event => rfl
  | commit block =>
    simp only [step]
    split
    · rfl
    · exact counting_applyCommittedHistories ‹_›
  | restore m => exact absurd rfl (hr m)

variable (P R chainId minVEffDelay capacity s) in
theorem validatorSet_step (hr : ∀ m, input ≠ .restore m) :
    (s.step P R chainId minVEffDelay capacity input).node.validatorSet = s.node.validatorSet := by
  cases input with
  | timeoutVote signed trusted => exact stepPacemaker_keeps _ _
  | pacemaker event => rfl
  | safety order event => rfl
  | commit block =>
    exact congrArg Prod.fst
      (counting_step P R chainId minVEffDelay capacity s hr (by simp) (by simp))
  | restore m => exact absurd rfl (hr m)

theorem Weighed.addedWeight (h : s.Weighed vs) (signed : Signed TimeoutVote) (id : ValidatorId) :
    s.node.addedWeight s.timeoutBuckets signed id =
      min (vs.weigh (⟨id, signed.signer⟩ :: s.countedIn signed.payload.view)) (2 ^ 128 - 1) := by
  unfold ConsensusNode.addedWeight saturatingAddU128
  simp only [h.weight, h.set, List.map_cons, List.sum_cons, ValidatorSet.weigh]
  omega

/-- A vote that leaves its bucket open has not brought it to a quorum. -/
theorem addedWeight_lt {signed : Signed TimeoutVote} {trusted : Bool} {id : ValidatorId}
    (hc : s.node.countsFor s.timeoutBuckets signed = some id)
    (hopen : ¬ s.Closes capacity signed.payload.view (.timeoutVote signed trusted)) :
    s.node.addedWeight s.timeoutBuckets signed id < s.node.validatorSet.quorumWeightThreshold := by
  by_contra hquorum
  obtain ⟨-, hcert, -⟩ := onTimeoutVote_counted capacity trusted hc
  exact hopen ⟨_, Nat.le_refl _, (hcert _).mpr ⟨rfl, Nat.le_of_not_lt hquorum⟩⟩

/-- No step but a restore changes what the weights of the buckets stand for. -/
theorem Weighed.step (h : s.Weighed vs) (hr : ∀ m, input ≠ .restore m) :
    (s.step P R chainId minVEffDelay capacity input).Weighed vs := by
  have hpositive := vs.thresholds
  constructor
  · exact (validatorSet_step P R chainId minVEffDelay capacity s hr).trans h.set
  · intro w
    cases bucketed P R chainId minVEffDelay capacity s w input with
    | lost _ weight countedIn =>
      rw [weight, countedIn]
      rfl
    | kept _ _ weight countedIn => rw [weight, countedIn, h.weight]
    | filled _ _ view _ weight countedIn => rw [weight, countedIn, h.addedWeight, view]
  · intro w
    cases bucketed P R chainId minVEffDelay capacity s w input with
    | lost _ weight _ =>
      rw [weight]
      omega
    | kept _ _ weight _ =>
      rw [weight]
      exact h.quorum w
    | filled stays vote view counts weight _ =>
      subst vote view
      rw [weight, ← h.set]
      exact addedWeight_lt counts fun hcloses => stays (.inr hcloses)

/-! ### The events of the pacemaker -/

theorem currentView_stepPacemaker (n : ConsensusNode) (w : ℕ) :
    (v < (n.stepPacemaker (.onRoundSync w)).currentView → v < n.currentView ∨ v < w) ∧
      (v < (n.stepPacemaker (.onTimeoutCert w)).currentView → v < n.currentView ∨ v ≤ w) := by
  unfold ConsensusNode.stepPacemaker Pacemaker.step currentView
  simp only
  constructor
  · by_cases hw : w ≤ n.pacemaker.currentView
    · rw [if_pos hw]
      exact .inl
    · rw [if_neg hw]
      exact .inr
  · by_cases hw : w < n.pacemaker.currentView
    · rw [if_pos hw]
      exact .inl
    · rw [if_neg hw]
      intro hlt
      have hnext : v < (w + 1) % 2 ^ 64 := hlt
      have hle := Nat.mod_le (w + 1) (2 ^ 64)
      exact .inr (by omega)

/-- What takes the pacemaker above a view is a round sync above it or a certificate for one that
is not below. -/
theorem currentView_effects {n : ConsensusNode} {effects : List TimeoutEffect}
    (h : v < ((effects.filterMap TimeoutEffect.pacemakerEvent?).foldl
      ConsensusNode.stepPacemaker n).currentView) :
    v < n.currentView ∨ (∃ w, v < w ∧ .roundSync w ∈ effects) ∨
      ∃ w, v ≤ w ∧ .timeoutCert w ∈ effects := by
  induction effects generalizing n with
  | nil => exact .inl h
  | cons e effects ih =>
    have hlater : (∃ w, v < w ∧ .roundSync w ∈ effects) ∨
        (∃ w, v ≤ w ∧ .timeoutCert w ∈ effects) →
        (∃ w, v < w ∧ .roundSync w ∈ e :: effects) ∨
          ∃ w, v ≤ w ∧ .timeoutCert w ∈ e :: effects := by
      rintro (⟨w, hw, hmem⟩ | ⟨w, hw, hmem⟩)
      · exact .inl ⟨w, hw, List.mem_cons_of_mem _ hmem⟩
      · exact .inr ⟨w, hw, List.mem_cons_of_mem _ hmem⟩
    cases e with
    | catchUp peer qc => exact (ih h).imp id hlater
    | adopt qc => exact (ih h).imp id hlater
    | roundSync w =>
      rcases ih h with hnow | hlast
      · rcases (currentView_stepPacemaker n w).1 hnow with hbefore | hw
        · exact .inl hbefore
        · exact .inr (.inl ⟨w, hw, List.mem_cons_self ..⟩)
      · exact .inr (hlater hlast)
    | timeoutCert w =>
      rcases ih h with hnow | hlast
      · rcases (currentView_stepPacemaker n w).2 hnow with hbefore | hw
        · exact .inl hbefore
        · exact .inr (.inr ⟨w, hw, List.mem_cons_self ..⟩)
      · exact .inr (hlater hlast)

/-- The vote brings enough weight to a bucket that answers for the view. -/
def Answers (vs : ValidatorSet) (v : ℕ) (s : TimeoutTeller) (input : TellerInput) : Prop :=
  ∃ signed trusted id, input = .timeoutVote signed trusted ∧
    s.node.countsFor s.timeoutBuckets signed = some id ∧ v ≤ signed.payload.view ∧
      vs.answerWeight v signed.payload.view ≤ s.node.addedWeight s.timeoutBuckets signed id

variable (capacity s input) in
/-- Only votes that are counted fire events of the pacemaker. -/
theorem silent_or_counts : (∀ e ∈ s.effects capacity input, e.pacemakerEvent? = none) ∨
    ∃ signed trusted id, input = .timeoutVote signed trusted ∧
      s.node.countsFor s.timeoutBuckets signed = some id := by
  cases input with
  | timeoutVote signed trusted =>
    cases hc : s.node.countsFor s.timeoutBuckets signed with
    | some id => exact .inr ⟨signed, trusted, id, rfl, hc⟩
    | none =>
      refine .inl fun e he => ?_
      obtain ⟨peer, highQc, rfl⟩ := (onTimeoutVote_of_none capacity trusted hc).2 e he
      rfl
  | _ => exact .inl fun _ he => absurd he List.not_mem_nil

theorem answers_of_effects (hset : s.node.validatorSet = vs)
    (h : (∃ w, v < w ∧ .roundSync w ∈ s.effects capacity input) ∨
      ∃ w, v ≤ w ∧ .timeoutCert w ∈ s.effects capacity input) : s.Answers vs v input := by
  have hthresholds := vs.thresholds
  rcases silent_or_counts capacity s input with hsilent | ⟨signed, trusted, id, rfl, hc⟩
  · rcases h with ⟨w, -, hmem⟩ | ⟨w, -, hmem⟩ <;> cases hsilent _ hmem
  · obtain ⟨-, hcert, hsync⟩ := onTimeoutVote_counted capacity trusted hc
    rcases h with ⟨w, hw, hmem⟩ | ⟨w, hw, hmem⟩
    · obtain ⟨rfl, -, hhonest⟩ := (hsync w).mp hmem
      refine ⟨signed, trusted, id, rfl, hc, Nat.le_of_lt hw, ?_⟩
      rw [hset] at hhonest
      rw [ValidatorSet.answerWeight, if_neg hw.ne']
      exact hhonest
    · obtain ⟨rfl, hquorum⟩ := (hcert w).mp hmem
      refine ⟨signed, trusted, id, rfl, hc, hw, ?_⟩
      rw [hset] at hquorum
      unfold ValidatorSet.answerWeight
      split_ifs
      · exact hquorum
      · exact hthresholds.2.1.trans hquorum

/-- A node leaves a view by an answer to it, or by an event of the pacemaker alone. -/
theorem answers_or_overtakes (hset : s.node.validatorSet = vs) (hr : ∀ m, input ≠ .restore m)
    (hbefore : ¬ v < s.node.currentView)
    (h : v < (s.step P R chainId minVEffDelay capacity input).node.currentView) :
    s.Overtakes v input ∨ s.Answers vs v input := by
  have hquiet : (s.step P R chainId minVEffDelay capacity input).node.counting =
      s.node.counting → s.Overtakes v input ∨ s.Answers vs v input := by
    intro hsame
    have hview : (s.step P R chainId minVEffDelay capacity input).node.currentView =
        s.node.currentView := congrArg (fun c => c.2.currentView) hsame
    rw [hview] at h
    exact absurd h hbefore
  cases input with
  | timeoutVote signed trusted =>
    have hmoved : v < (((s.effects capacity (.timeoutVote signed trusted)).filterMap
        TimeoutEffect.pacemakerEvent?).foldl ConsensusNode.stepPacemaker s.node).currentView := h
    exact .inr (answers_of_effects hset
      ((currentView_effects hmoved).resolve_left hbefore))
  | pacemaker event => exact .inl h
  | safety order event => exact hquiet rfl
  | commit block =>
    exact hquiet (counting_step P R chainId minVEffDelay capacity s hr (by simp) (by simp))
  | restore m => exact absurd rfl (hr m)

/-- The votes of an answer have come in since the bucket was last thrown out. -/
theorem within_of_answers {n : ConsensusNode} {storage : Storage} {before after : List TellerInput}
    (hweighed : (run (step P R chainId minVEffDelay capacity) (start storage n) before).Weighed vs)
    (h : (run (step P R chainId minVEffDelay capacity) (start storage n) before).Answers vs v
      input) :
    ∃ w, v ≤ w ∧ Within (step P R chainId minVEffDelay capacity) (votesFor w)
      (fun s input => ¬ s.Ousts capacity w input)
      (fun votes => vs.answerWeight v w ≤ vs.weigh votes) (start storage n)
      (before ++ input :: after) := by
  obtain ⟨signed, trusted, id, rfl, hc, hv, hanswer⟩ := h
  have hempty : (start storage n).countedIn signed.payload.view = [] := ite_self _
  obtain ⟨pre, during, rfl, hkept, hcontent⟩ := content_since
    (C := fun s : TimeoutTeller => s.countedIn signed.payload.view)
    (fun s input => (countedIn_step P R chainId minVEffDelay capacity s _ input).1)
    (fun s input hlost => (countedIn_step P R chainId minVEffDelay capacity s _ input).2
      (not_not.mp hlost)) hempty before
  have hstays := Along.mono hkept fun s input hk => (not_or.mp hk).1
  have hvictim : ¬ (run (step P R chainId minVEffDelay capacity) (start storage n)
      (pre ++ during)).Ousts capacity signed.payload.view (.timeoutVote signed trusted) := by
    rintro ⟨-, hnone, hvictim⟩
    rw [Table.containsKey_of_victim hvictim] at hnone
    cases hnone
  rw [run_append] at hvictim
  refine ⟨signed.payload.view, hv, pre, during ++ [.timeoutVote signed trusted], after, by simp,
    hstays.concat hvictim, ?_⟩
  rw [hweighed.addedWeight, hcontent] at hanswer
  rw [run_append] at hc
  have hvotes : (run (step P R chainId minVEffDelay capacity)
      (run (step P R chainId minVEffDelay capacity) (start storage n) pre) during).votesFor
        signed.payload.view (.timeoutVote signed trusted) = [⟨id, signed.signer⟩] := by
    simp [votesFor, hc]
  rw [gathered_concat, hvotes]
  exact hanswer.trans (Nat.min_le_left _ _)

/-! ### Nothing fires without an answer -/

/-- No bucket answers for the view yet. -/
structure Short (vs : ValidatorSet) (v : ℕ) (s : TimeoutTeller) : Prop extends s.Weighed vs where
  honesty : ∀ w, v < w → bucketWeight s.timeoutBuckets w < vs.honestyWeightThreshold

theorem Short.addedWeight_lt (h : s.Short vs v) {signed : Signed TimeoutVote} {trusted : Bool}
    {id : ValidatorId} (hc : s.node.countsFor s.timeoutBuckets signed = some id)
    (hv : v < signed.payload.view)
    (hleaves : ¬ s.Leaves P R chainId minVEffDelay capacity v (.timeoutVote signed trusted)) :
    s.node.addedWeight s.timeoutBuckets signed id < vs.honestyWeightThreshold := by
  by_contra hhonest
  obtain ⟨-, -, hsync⟩ := onTimeoutVote_counted capacity trusted hc
  refine hleaves (.inr (.inl ⟨_, hv, (hsync _).mpr ⟨rfl, ?_, ?_⟩⟩))
  · rw [h.set]
    exact h.honesty _ hv
  · rw [h.set]
    exact Nat.le_of_not_lt hhonest

/-- A step that does not leave the view closes no bucket that could answer for it. -/
theorem Short.not_closes (h : s.Short vs v) (hv : v ≤ w)
    (hleaves : ¬ s.Leaves P R chainId minVEffDelay capacity v input) :
    ¬ s.Closes capacity w input := by
  rintro ⟨w', hw, hmem⟩
  rcases silent_or_counts capacity s input with hsilent | ⟨signed, trusted, id, rfl, hc⟩
  · cases hsilent _ hmem
  · obtain ⟨-, hcert, -⟩ := onTimeoutVote_counted capacity trusted hc
    obtain ⟨rfl, hquorum⟩ := (hcert w').mp hmem
    rcases Nat.eq_or_lt_of_le (hv.trans hw) with heq | hlt
    · subst heq
      exact hleaves (.inl hmem)
    · have hshort := h.addedWeight_lt hc hlt hleaves
      have hthresholds := vs.thresholds
      rw [h.set] at hquorum
      omega

theorem Short.step (h : s.Short vs v) (hr : ∀ m, input ≠ .restore m)
    (hleaves : ¬ s.Leaves P R chainId minVEffDelay capacity v input) :
    (s.step P R chainId minVEffDelay capacity input).Short vs v := by
  have hthresholds := vs.thresholds
  refine ⟨h.toWeighed.step hr, fun w hw => ?_⟩
  cases bucketed P R chainId minVEffDelay capacity s w input with
  | lost _ weight _ =>
    rw [weight]
    omega
  | kept _ _ weight _ =>
    rw [weight]
    exact h.honesty w hw
  | filled stays vote view counts weight _ =>
    subst vote view
    rw [weight]
    exact h.addedWeight_lt counts hw hleaves

end
end TimeoutTeller

namespace TimeoutTeller
section
variable (P : Primitives) (R : HistoryPrimitives) (chainId : ChainId) (minVEffDelay capacity : ℕ)

theorem short_start (storage : Storage) (n : ConsensusNode) (v : ℕ) :
    (start storage n).Short n.validatorSet v := by
  have hthresholds := n.validatorSet.thresholds
  refine ⟨⟨rfl, fun w => rfl, fun w => ?_⟩, fun w _ => ?_⟩ <;>
    show 0 < _ <;> omega

variable {capacity : ℕ} {storage : Storage} {n : ConsensusNode} {v : ℕ}
  {inputs : List TellerInput}

theorem weighed_run (hr : Along (step P R chainId minVEffDelay capacity)
    (fun _ input => ∀ m, input ≠ .restore m) (start storage n) inputs) :
    (run (step P R chainId minVEffDelay capacity) (start storage n) inputs).Weighed
      n.validatorSet :=
  hr.invariant (fun _ _ hi hs => hs.step hi) (short_start storage n 0).toWeighed

/-- A node leaves a view by an event of the pacemaker or by a vote that brings enough weight. -/
theorem answered_of_leaves (hview : n.currentView ≤ v)
    (hr : ∀ input ∈ inputs, ∀ m, input ≠ .restore m)
    (h : Sometime (step P R chainId minVEffDelay capacity)
      (Leaves P R chainId minVEffDelay capacity v) (start storage n) inputs) :
    Sometime (step P R chainId minVEffDelay capacity)
      (fun s input => s.Overtakes v input ∨ s.Answers n.validatorSet v input)
      (start storage n) inputs := by
  obtain ⟨before, input, after, rfl, hleave⟩ := sometime_iff.mp h
  have hbefore : Along (step P R chainId minVEffDelay capacity)
      (fun _ input => ∀ m, input ≠ .restore m) (start storage n) before :=
    .of_forall fun input hmem => hr input (List.mem_append_left _ hmem)
  have hset := (weighed_run P R chainId minVEffDelay hbefore).set
  rcases hleave with hcert | hsync | hmoved
  · have hanswers := answers_of_effects hset (.inr ⟨v, le_rfl, hcert⟩)
    exact sometime_iff.mpr ⟨before, input, after, rfl, .inr hanswers⟩
  · have hanswers := answers_of_effects hset (.inl hsync)
    exact sometime_iff.mpr ⟨before, input, after, rfl, .inr hanswers⟩
  · have hsub : before ++ [input] ⊆ before ++ input :: after := by simp
    have hnow : Along (step P R chainId minVEffDelay capacity)
        (fun _ input => ∀ m, input ≠ .restore m) (start storage n) (before ++ [input]) :=
      .of_forall fun input' hmem => hr input' (hsub hmem)
    have hchange := Sometime.of_change (G := fun s => v < s.node.currentView) hnow
      (fun s input hi hs => Weighed.step hs hi)
      (fun s input hi hs hlater => or_iff_not_imp_left.mpr fun hearlier =>
        answers_or_overtakes hs.set hi hearlier hlater) (short_start storage n v).toWeighed
      (by rwa [run_append])
    rw [← List.singleton_append, ← List.append_assoc]
    exact (hchange.resolve_left (Nat.not_lt.mpr hview)).append after

/-- Enough votes in a bucket that stays take the node away from the view. -/
theorem leaves_of_within {w : ℕ} (hv : v ≤ w) (hr : ∀ input ∈ inputs, ∀ m, input ≠ .restore m)
    (h : Within (step P R chainId minVEffDelay capacity) (votesFor w)
      (fun s input => ¬ s.Ousts capacity w input)
      (fun votes => n.validatorSet.answerWeight v w ≤ n.validatorSet.weigh votes)
      (start storage n) inputs) :
    Sometime (step P R chainId minVEffDelay capacity)
      (Leaves P R chainId minVEffDelay capacity v) (start storage n) inputs := by
  obtain ⟨before, during, after, rfl, hstays, henough⟩ := h
  by_contra hnever
  have hleaves := along_not_iff.mpr fun h => hnever (h.append after)
  have hkept : Along (step P R chainId minVEffDelay capacity)
      (fun _ input => ∀ m, input ≠ .restore m) (start storage n) (before ++ during) :=
    .of_forall fun input hmem => hr input (List.mem_append_left after hmem)
  obtain ⟨hbefore, hduring⟩ := (hleaves.and hkept).append
  have hshort := hbefore.invariant (fun s input hi hs => Short.step hs hi.2 hi.1)
    (short_start storage n v)
  have hopen := (hduring.and hstays).imp_of_invariant (I := (Short n.validatorSet v))
    (R := fun s input => ¬ (s.Ousts capacity w input ∨ s.Closes capacity w input))
    (fun s input hi hs => ⟨hs.step hi.1.2 hi.1.1,
      not_or.mpr ⟨hi.2, hs.not_closes hv hi.1.1⟩⟩) hshort
  have hend := hduring.invariant (fun s input hi hs => Short.step hs hi.2 hi.1) hshort
  have hcontent := content_of_keeps (C := fun s : TimeoutTeller => s.countedIn w)
    (fun s input => (countedIn_step P R chainId minVEffDelay capacity s w input).1) hopen
  have hmore : n.validatorSet.weigh (gathered (step P R chainId minVEffDelay capacity)
      (votesFor w) (run (step P R chainId minVEffDelay capacity) (start storage n) before)
        during) ≤
      n.validatorSet.weigh ((run (step P R chainId minVEffDelay capacity)
        (run (step P R chainId minVEffDelay capacity) (start storage n) before)
          during).countedIn w) := by
    rw [hcontent]
    simp [ValidatorSet.weigh]
  have hthresholds := n.validatorSet.thresholds
  have hweight := hend.weight w
  have hquorum := hend.quorum w
  have hreached := henough.trans hmore
  unfold ValidatorSet.answerWeight at hreached
  split_ifs at hreached with hw
  · omega
  · have hhonest := hend.honesty w (lt_of_le_of_ne hv (Ne.symm hw))
    omega

end
end TimeoutTeller

/-- In a run over one validator set, a node fires the timeout certificate of a view or goes past it
exactly when the pacemaker does so of itself, or when a stretch of the run that throws the bucket of
a view out nowhere brings that bucket enough votes: a quorum for the view, a third for one above. -/
theorem timeout_fired_iff (P : Primitives) (R : HistoryPrimitives) (chainId : ChainId)
    (minVEffDelay capacity : ℕ) (storage : Storage) {n : ConsensusNode} {v : ℕ}
    (hview : n.currentView ≤ v) {inputs : List TellerInput} (hr : ∀ m, .restore m ∉ inputs) :
    Sometime (TimeoutTeller.step P R chainId minVEffDelay capacity)
        (TimeoutTeller.Leaves P R chainId minVEffDelay capacity v) (.start storage n) inputs ↔
      Sometime (TimeoutTeller.step P R chainId minVEffDelay capacity) (TimeoutTeller.Overtakes v)
          (.start storage n) inputs ∨
        ∃ w, v ≤ w ∧ Within (TimeoutTeller.step P R chainId minVEffDelay capacity)
          (TimeoutTeller.votesFor w) (fun s input => ¬ s.Ousts capacity w input)
          (fun votes => n.validatorSet.answerWeight v w ≤ n.validatorSet.weigh votes)
          (.start storage n) inputs := by
  have hnorestore : ∀ input ∈ inputs, ∀ m, input ≠ .restore m :=
    fun input hmem m he => hr m (he ▸ hmem)
  constructor
  · intro hleaves
    have hanswered := TimeoutTeller.answered_of_leaves P R chainId minVEffDelay hview hnorestore
      hleaves
    obtain ⟨before, input, after, rfl, hone⟩ := sometime_iff.mp hanswered
    rcases hone with hovertakes | hanswers
    · exact .inl (sometime_iff.mpr ⟨before, input, after, rfl, hovertakes⟩)
    · have hbefore : Along (TimeoutTeller.step P R chainId minVEffDelay capacity)
          (fun _ input => ∀ m, input ≠ .restore m) (.start storage n) before :=
        .of_forall fun input hmem => hnorestore input (List.mem_append_left _ hmem)
      have hweighed := TimeoutTeller.weighed_run P R chainId minVEffDelay hbefore
      exact .inr (TimeoutTeller.within_of_answers hweighed hanswers)
  · rintro (hovertakes | ⟨w, hv, hwithin⟩)
    · refine hovertakes.mono fun s input hover => .inr (.inr ?_)
      cases input with
      | pacemaker event => exact hover
      | _ => exact hover.elim
    · exact TimeoutTeller.leaves_of_within P R chainId minVEffDelay hv hnorestore hwithin

/-- A core forms the certificate of a quorum's votes, and a node answers a quorum's timeout votes,
exactly when the votes come within a stretch of the run in which their bucket is not thrown out. -/
theorem tallies_kept_iff (P : Primitives) :
    (∀ selfId state limits k inputs,
      (Sometime (Booth.hear P) (Booth.Forms P k) (.start selfId state limits) inputs ∧
          ∃ qc ∈ (run (Booth.hear P) (.start selfId state limits) inputs).core.state.highQc,
            k.1 ≤ qc.view) ↔
        Within (Booth.hear P) (Booth.votesFor k) (fun b input => ¬ b.Ousts k input)
          (state.validatorHistory.setAt k.1).Outweighs (.start selfId state limits) inputs) ∧
      ∀ R chainId minVEffDelay capacity storage, ∀ n : ConsensusNode, ∀ v inputs,
        n.currentView ≤ v → (∀ m, .restore m ∉ inputs) →
        (Sometime (TimeoutTeller.step P R chainId minVEffDelay capacity)
            (TimeoutTeller.Leaves P R chainId minVEffDelay capacity v) (.start storage n) inputs ↔
          Sometime (TimeoutTeller.step P R chainId minVEffDelay capacity)
              (TimeoutTeller.Overtakes v) (.start storage n) inputs ∨
            ∃ w, v ≤ w ∧ Within (TimeoutTeller.step P R chainId minVEffDelay capacity)
              (TimeoutTeller.votesFor w) (fun s input => ¬ s.Ousts capacity w input)
              (fun votes => n.validatorSet.answerWeight v w ≤ n.validatorSet.weigh votes)
              (.start storage n) inputs) := by
  refine ⟨quorum_formed_iff P, ?_⟩
  intro R chainId minVEffDelay capacity storage n v inputs hview hr
  exact timeout_fired_iff P R chainId minVEffDelay capacity storage hview hr

namespace Sample

/-- The vote of a validator in a view, always for the hash 2. -/
def ballot (vote : ValidatorId × ℕ) : Signed Vote := ⟨⟨vote.2, 2⟩, vote.1, 0⟩

def ballots (votes : List (ValidatorId × ℕ)) : List (IterOrder × Event) :=
  votes.map fun vote => (order, .voteReceived ⟨⟨ballot vote, vote.1⟩, vote.1⟩)

def timeoutsOf (votes : List (NodeId × ℕ)) : List TellerInput :=
  votes.map fun vote => .timeoutVote ⟨⟨vote.2, none⟩, vote.1, 0⟩ true

/-- One more bucket than there are validators. -/
def fiveBuckets : CacheLimits := { CacheLimits.unboundedForTests with voteBucketCapacity := 5 }

/-- Validator 4 votes in five later views while the others vote in view 20. -/
def swamping : List (ValidatorId × ℕ) :=
  [(1, 20), (4, 21), (4, 22), (4, 23), (4, 24), (4, 25), (2, 20), (3, 20)]

theorem swamped :
    (∀ vote ∈ swamping, ingressVote verifier context (ballot vote) (some vote.1) =
      .ok [.safety (.voteReceived ⟨⟨ballot vote, vote.1⟩, vote.1⟩)]) ∧
    validators.Outweighs [1, 2, 3] ∧
    3 * (validators.weightFor 4).getD 0 < validators.totalWeight ∧
    (∀ qc ∈ (run (Booth.hear primitives) (.start 1 (.new primitives validators genesis) fiveBuckets)
      (ballots swamping)).core.state.highQc, qc.view < 20) ∧
    ∃ n ∈ recover timed config .empty, n.currentView ≤ 20 ∧
      ¬ Sometime (TimeoutTeller.step timed allChanges chainId config.minVEffDelay 5)
        (TimeoutTeller.Leaves timed allChanges chainId config.minVEffDelay 5 20) (.start .empty n)
        (timeoutsOf swamping) := by
  obtain ⟨n, hn, hview, hquiet⟩ : ∃ n ∈ recover timed config .empty, n.currentView ≤ 20 ∧
      Along (TimeoutTeller.step timed allChanges chainId config.minVEffDelay 5)
        (fun s input => (∀ e ∈ s.effects 5 input, e = .roundSync 20) ∧
          (s.step timed allChanges chainId config.minVEffDelay 5 input).node.currentView ≤ 20)
        (.start .empty n) (timeoutsOf swamping) := by decide +kernel
  refine ⟨by decide +kernel, by decide +kernel, by decide +kernel, by decide +kernel, n, hn, hview,
    along_not_iff.mp (hquiet.mono ?_)⟩
  rintro s input ⟨heffects, hstays⟩ (hcert | ⟨w, hw, hsync⟩ | hmoved)
  · cases heffects _ hcert
  · cases heffects _ hsync
    exact Nat.lt_irrefl _ hw
  · omega

/-- Votes of three validators with nothing in between. -/
def undisturbed : List (ValidatorId × ℕ) := [(1, 20), (2, 20), (3, 20)]

theorem undisturbed_kept :
    (∃ qc ∈ (run (Booth.hear primitives) (.start 1 (.new primitives validators genesis) fiveBuckets)
      (ballots undisturbed)).core.state.highQc, 20 ≤ qc.view) ∧
    ∃ n ∈ recover timed config .empty,
      Sometime (TimeoutTeller.step timed allChanges chainId config.minVEffDelay 5)
        (TimeoutTeller.Leaves timed allChanges chainId config.minVEffDelay 5 20) (.start .empty n)
        (timeoutsOf undisturbed) := by
  obtain ⟨hvotes, hheavy⟩ :
      Along (Booth.hear primitives) (fun b input => ¬ b.Ousts (20, 2) input)
        (.start 1 (.new primitives validators genesis) fiveBuckets) (ballots undisturbed) ∧
      validators.Outweighs (gathered (Booth.hear primitives) (Booth.votesFor (20, 2))
        (.start 1 (.new primitives validators genesis) fiveBuckets) (ballots undisturbed)) := by
    decide +kernel
  obtain ⟨n, hn, hview, hkept, henough⟩ : ∃ n ∈ recover timed config .empty, n.currentView ≤ 20 ∧
      Along (TimeoutTeller.step timed allChanges chainId config.minVEffDelay 5)
        (fun s input => ¬ s.Ousts 5 20 input) (.start .empty n) (timeoutsOf undisturbed) ∧
      n.validatorSet.answerWeight 20 20 ≤ n.validatorSet.weigh (gathered
        (TimeoutTeller.step timed allChanges chainId config.minVEffDelay 5)
        (TimeoutTeller.votesFor 20) (.start .empty n) (timeoutsOf undisturbed)) := by
    decide +kernel
  have hformed := ((tallies_kept_iff primitives).1 1 (.new primitives validators genesis)
    fiveBuckets (20, 2) (ballots undisturbed)).mpr
      ⟨[], ballots undisturbed, [], rfl, hvotes, hheavy⟩
  have hfired := ((tallies_kept_iff timed).2 allChanges chainId config.minVEffDelay 5 .empty n 20
    (timeoutsOf undisturbed) hview (by simp [timeoutsOf])).mpr
      (.inr ⟨20, le_rfl, [], timeoutsOf undisturbed, [], by simp, hkept, henough⟩)
  exact ⟨hformed.2, n, hn, hfired⟩

end Sample

end Boule
