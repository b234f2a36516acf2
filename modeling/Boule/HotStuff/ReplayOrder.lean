import Boule.HotStuff.Parked
import Boule.HotStuff.Replay

/-! The order in which the parked proposals are replayed. -/
namespace Boule

open HotStuffState

/-- A vote that is sent, a commit, or an update that is written. -/
def Action.isOutcome : Action → Bool
  | .broadcast (.vote _) => true
  | .persist _ => true
  | .commit _ => true
  | _ => false

theorem Action.isOutcome_eq_false {a : Action} (hr : a.isRecord = false)
    (hs : a.isSafety = false) : a.isOutcome = false := by
  cases a with
  | broadcast msg => cases hr
  | persist update => cases hr
  | commit block => cases hs
  | _ => rfl

namespace HotStuffCore

def parked? (c : HotStuffCore) (k : BlockHash) : Option Proposal :=
  (c.parkedProposals.get? k).map Signed.payload

/-- The parked proposals whose parent is pending. -/
def readyProposals (c : HotStuffCore) : List Proposal := c.readyParked.filterMap c.parked?

/-- Equal but for the order of the entries of the hash maps. -/
structure SameContents (c c' : HotStuffCore) : Prop where
  selfId : c'.selfId = c.selfId
  limits : c'.limits = c.limits
  currentView : c'.state.currentView = c.state.currentView
  validatorSet : c'.state.validatorSet = c.state.validatorSet
  locked : c'.state.locked = c.state.locked
  lastVotedView : c'.state.lastVotedView = c.state.lastVotedView
  highQc : c'.state.highQc = c.state.highQc
  pendingBlocks : c.state.pendingBlocks.Same c'.state.pendingBlocks
  parkedProposals : c.parkedProposals.Same c'.parkedProposals
  blockSyncInflight : c.blockSyncInflight.Same c'.blockSyncInflight

/-- The same state, and the same votes, commits and updates. -/
structure SameOutcome (r r' : HotStuffCore × List Action) : Prop where
  contents : SameContents r.1 r'.1
  actions : ∀ a, a.isOutcome = true → (a ∈ r.2 ↔ a ∈ r'.2)

/-- However the map of the parked proposals is read, entering the view has the same outcome. -/
def OrderIndependent (P : Primitives) (c : HotStuffCore) (v : ℕ) : Prop :=
  ∀ order order', SameOutcome (c.step P order (.pacemakerAdvance v))
    (c.step P order' (.pacemakerAdvance v))

variable {P : Primitives} {c c' : HotStuffCore}

/-! ### The ready proposals -/

theorem mem_readyParked_iff {k : BlockHash} : k ∈ c.readyParked ↔
    ∃ signed, c.parkedProposals.get? k = some signed ∧
      c.state.pendingBlocks.containsKey signed.payload.block.header.parentHash = true := by
  unfold readyParked
  rw [Table.mem_keys_iff, Table.containsKey_iff]
  simp only [Table.get?_retain_eq_some]

theorem nodup_readyParked (c : HotStuffCore) : c.readyParked.Nodup := AList.keys_nodup _

theorem parked?_eq_some_iff {k : BlockHash} {p : Proposal} : c.parked? k = some p ↔
    ∃ signed, c.parkedProposals.get? k = some signed ∧ signed.payload = p := by
  rw [parked?, Option.map_eq_some_iff]

theorem mem_readyProposals_iff {p : Proposal} : p ∈ c.readyProposals ↔
    ∃ k ∈ c.readyParked, c.parked? k = some p := List.mem_filterMap

theorem distinct_readyProposals (hkeys : c.ParkedByHash P) :
    Distinct P c.readyProposals := by
  intro p hp q hq hhash
  obtain ⟨k, -, hk⟩ := mem_readyProposals_iff.mp hp
  obtain ⟨k', -, hk'⟩ := mem_readyProposals_iff.mp hq
  obtain ⟨signed, hget, rfl⟩ := parked?_eq_some_iff.mp hk
  obtain ⟨signed', hget', rfl⟩ := parked?_eq_some_iff.mp hk'
  have hsame : k = k' := (hkeys k signed hget).symm.trans (hhash.trans (hkeys k' signed' hget'))
  rw [hsame, hget'] at hget
  rw [Option.some.inj hget]

/-! ### After the replay -/

theorem SameContents.runBlockSyncRetryForParent (h : SameContents c c') (k : BlockHash) :
    SameContents (c.runBlockSyncRetryForParent k).1 (c'.runBlockSyncRetryForParent k).1 := by
  unfold HotStuffCore.runBlockSyncRetryForParent tryEmitBlockSyncRetry askAgain dropParkedForParent
  rw [← h.blockSyncInflight k, h.limits, h.currentView, h.validatorSet, h.selfId]
  cases c.blockSyncInflight.get? k with
  | none => exact h
  | some e =>
    simp only
    split_ifs
    · exact ⟨rfl, rfl, h.currentView, h.validatorSet, h.locked, h.lastVotedView, h.highQc,
        h.pendingBlocks, h.parkedProposals.retain _, h.blockSyncInflight.erase k⟩
    · exact h
    · exact ⟨rfl, rfl, h.currentView, h.validatorSet, h.locked, h.lastVotedView, h.highQc,
        h.pendingBlocks, h.parkedProposals, h.blockSyncInflight.insert k _⟩

theorem SameContents.retries (h : SameContents c c') (hashes : List BlockHash) :
    SameContents (forHashes HotStuffCore.runBlockSyncRetryForParent c hashes).1
      (forHashes HotStuffCore.runBlockSyncRetryForParent c' hashes).1 := by
  induction hashes generalizing c c' with
  | nil => exact h
  | cons k hashes ih => exact ih (h.runBlockSyncRetryForParent k)

/-- The parents are retried in the order of their hashes. -/
theorem SameContents.parentHashesToRetry (h : SameContents c c') :
    c'.parentHashesToRetry = c.parentHashesToRetry := by
  unfold HotStuffCore.parentHashesToRetry
  have hmissing : (fun hash => !c'.state.pendingBlocks.containsKey hash) =
      fun hash => !c.state.pendingBlocks.containsKey hash :=
    funext fun hash => congrArg not (h.pendingBlocks.containsKey hash).symm
  rw [h.highQc, hmissing]
  refine sortedSet_congr fun x => ?_
  rw [List.mem_append, List.mem_append, (h.parkedProposals.toList_perm.map _).mem_iff]

theorem isOutcome_after {v : ℕ} {a : Action} (ha : a ∈
    (forHashes HotStuffCore.runBlockSyncRetryForParent c c.parentHashesToRetry).2 ++
      c'.newViewActions ++ c'.tryProposeAsLeader v) : a.isOutcome = false := by
  rcases List.mem_append.mp ha with ha | ha
  · rcases List.mem_append.mp ha with ha | ha
    · have hrecord := (syncs_forHashes syncs_runBlockSyncRetryForParent c _).quiet a ha
      have hsafety := (quiet_forHashes quiet_runBlockSyncRetryForParent c c.parentHashesToRetry).2
      refine Action.isOutcome_eq_false hrecord (Bool.eq_false_iff.mpr ?_)
      exact List.filter_eq_nil_iff.mp hsafety a ha
    · unfold newViewActions at ha
      obtain ⟨qc, -, rfl⟩ := Option.map_eq_some_iff.mp (Option.mem_toList.mp ha)
      rfl
  · have hsafety := filter_tryProposeAsLeader c' v
    refine Action.isOutcome_eq_false (isRecord_tryProposeAsLeader c' v a ha)
      (Bool.eq_false_iff.mpr ?_)
    exact List.filter_eq_nil_iff.mp hsafety a ha

/-- What a replay in this order of the keys does. -/
def replayIn (P : Primitives) (c : HotStuffCore) (keys : List BlockHash) :
    HotStuffCore × List Action := forHashes (resumeParked P) c keys

theorem replayIn_nil (P : Primitives) (c : HotStuffCore) : c.replayIn P [] = (c, []) := rfl

theorem replayIn_cons (P : Primitives) (c : HotStuffCore) (k : BlockHash)
    (ks : List BlockHash) : c.replayIn P (k :: ks) =
      (((c.resumeParked P k).1.replayIn P ks).1,
        (c.resumeParked P k).2 ++ ((c.resumeParked P k).1.replayIn P ks).2) := rfl

theorem mem_step_iff {order : IterOrder} {v : ℕ} {a : Action} (ha : a.isOutcome = true) :
    a ∈ (c.step P order (.pacemakerAdvance v)).2 ↔
      a ∈ ((c.enterView v).replayIn P (order.apply (c.enterView v).readyParked)).2 := by
  simp only [step, onPacemakerAdvance]
  rw [List.append_assoc, List.append_assoc, List.mem_append, ← List.append_assoc]
  refine or_iff_left fun hmem => ?_
  rw [isOutcome_after hmem] at ha
  cases ha

/-- What comes after the replay keeps the outcome. -/
theorem sameOutcome_of_replay {order order' : IterOrder} {v : ℕ}
    (h : SameContents ((c.enterView v).replayIn P (order.apply (c.enterView v).readyParked)).1
      ((c.enterView v).replayIn P (order'.apply (c.enterView v).readyParked)).1)
    (hactions : ∀ a, a.isOutcome = true →
      (a ∈ ((c.enterView v).replayIn P (order.apply (c.enterView v).readyParked)).2 ↔
        a ∈ ((c.enterView v).replayIn P (order'.apply (c.enterView v).readyParked)).2)) :
    SameOutcome (c.step P order (.pacemakerAdvance v)) (c.step P order' (.pacemakerAdvance v)) where
  contents := by
    simp only [step, onPacemakerAdvance]
    show SameContents (forHashes HotStuffCore.runBlockSyncRetryForParent _ _).1
      (forHashes HotStuffCore.runBlockSyncRetryForParent _ _).1
    rw [← replayIn, ← replayIn, h.parentHashesToRetry]
    exact h.retries _
  actions := fun a ha => (mem_step_iff ha).trans ((hactions a ha).trans (mem_step_iff ha).symm)

/-! ### The replay -/

/-- The core after the proposals of `done` have been taken up, whatever their order was. -/
structure TakenUp (P : Primitives) (c : HotStuffCore) (done : List Proposal)
    (r : HotStuffCore × List Action) : Prop where
  replayed : Replayed P c.state c.readyProposals done r.1.state r.2
  selfId : r.1.selfId = c.selfId
  limits : r.1.limits = c.limits
  parked : ∀ k, r.1.parkedProposals.get? k =
    if ∃ p ∈ done, p.block.hash P = k then none else c.parkedProposals.get? k
  inflight : ∀ k, r.1.blockSyncInflight.get? k =
    if ∃ p ∈ done, p.block.header.parentHash = k ∨ p.block.hash P = k then none
    else c.blockSyncInflight.get? k

namespace TakenUp
variable {done done' : List Proposal} {r r' : HotStuffCore × List Action}

theorem nil (P : Primitives) (c : HotStuffCore) : TakenUp P c [] (c, []) where
  replayed := .nil P c.state c.readyProposals
  selfId := rfl
  limits := rfl
  parked := by simp
  inflight := by simp

/-- The parent is still there, so the proposal is accepted. -/
theorem resumeParked_eq (h : TakenUp P c done r) (hkeys : c.ParkedByHash P)
    (hj : JudgedApart P c.state c.readyProposals) {k : BlockHash} {signed : Signed Proposal}
    (hk : c.parkedProposals.get? k = some signed)
    (hu : Upcoming c.readyProposals done signed.payload) :
    r.1.resumeParked P k = ({ r.1 with
      state := (r.1.state.acceptProposal P signed.payload).1
      parkedProposals := r.1.parkedProposals.erase k
      blockSyncInflight := (r.1.blockSyncInflight.erase
        signed.payload.block.header.parentHash).erase (signed.payload.block.hash P) },
      (r.1.state.acceptProposal P signed.payload).2) := by
  have hparked : r.1.parkedProposals.get? k = some signed := by
    rw [h.parked, if_neg, hk]
    rintro ⟨q, hq, hsame⟩
    have hd := distinct_readyProposals hkeys
    exact hu.ne hq (hd _ hu.mem q (hu.taken q hq) ((hkeys k signed hk).trans hsame.symm))
  have hparent : c.state.pendingBlocks.containsKey
      signed.payload.block.header.parentHash = true := by
    obtain ⟨k', hready, hk'⟩ := mem_readyProposals_iff.mp hu.mem
    obtain ⟨signed', hget, hsame⟩ := parked?_eq_some_iff.mp hk'
    obtain ⟨signed'', hget', hknown⟩ := mem_readyParked_iff.mp hready
    obtain rfl := Option.some.inj (hget.symm.trans hget')
    exact hsame ▸ hknown
  have hknown := h.replayed.containsKey_parent hj hu hparent
  unfold resumeParked onProposalReceived
  simp only [hparked, hknown, Bool.not_true, Bool.false_eq_true, if_false]

theorem next (h : TakenUp P c done r) (hkeys : c.ParkedByHash P)
    (hj : JudgedApart P c.state c.readyProposals) {k : BlockHash} {signed : Signed Proposal}
    (hk : c.parkedProposals.get? k = some signed)
    (hu : Upcoming c.readyProposals done signed.payload)
    (ha : Agree P c.state c.readyProposals (signed.payload :: done)) :
    TakenUp P c (done ++ [signed.payload])
      ((r.1.resumeParked P k).1, r.2 ++ (r.1.resumeParked P k).2) := by
  have hhash := hkeys k signed hk
  rw [h.resumeParked_eq hkeys hj hk hu]
  constructor
  · exact h.replayed.next hj hu (distinct_readyProposals hkeys) ha
  · exact h.selfId
  · exact h.limits
  · intro k'
    simp only [Table.get?_erase, h.parked, List.mem_append, List.mem_singleton, or_and_right,
      exists_or, exists_eq_left, hhash]
    by_cases he : k = k'
    · simp [he]
    · simp [he, Ne.symm he]
  · intro k'
    simp only [Table.get?_erase, h.inflight, List.mem_append, List.mem_singleton, or_and_right,
      exists_or, exists_eq_left]
    by_cases hown : signed.payload.block.hash P = k'
    · simp [hown]
    · by_cases he : signed.payload.block.header.parentHash = k'
      · simp [he]
      · simp [hown, he, Ne.symm hown, Ne.symm he]

/-- The keys are taken up one after the other. -/
theorem replayIn (h : TakenUp P c done r) (hkeys : c.ParkedByHash P)
    (hj : JudgedApart P c.state c.readyProposals)
    (ha : Agree P c.state c.readyProposals c.readyProposals) {ks : List BlockHash}
    (hready : ∀ k ∈ ks, k ∈ c.readyParked) (hnodup : (done ++ ks.filterMap c.parked?).Nodup)
    (hdone : ∀ q ∈ done, q ∈ c.readyProposals) :
    TakenUp P c (done ++ ks.filterMap c.parked?)
      ((r.1.replayIn P ks).1, r.2 ++ (r.1.replayIn P ks).2) := by
  induction ks generalizing done r with
  | nil =>
    rw [List.filterMap_nil, List.append_nil, replayIn_nil, List.append_nil]
    exact h
  | cons k ks ih =>
    obtain ⟨signed, hk, -⟩ := mem_readyParked_iff.mp (hready k (List.mem_cons_self ..))
    have hp : c.parked? k = some signed.payload := parked?_eq_some_iff.mpr ⟨signed, hk, rfl⟩
    have hlist : (k :: ks).filterMap c.parked? = [signed.payload] ++ ks.filterMap c.parked? :=
      List.filterMap_cons_some hp
    rw [hlist, ← List.append_assoc] at hnodup ⊢
    have hmem : signed.payload ∈ c.readyProposals :=
      mem_readyProposals_iff.mpr ⟨k, hready k (List.mem_cons_self ..), hp⟩
    have hfirst : (done ++ [signed.payload]).Nodup := hnodup.of_append_left
    have hu : Upcoming c.readyProposals done signed.payload := by
      refine ⟨hdone, hfirst.of_append_left, hmem, fun hin => ?_⟩
      exact (List.disjoint_of_nodup_append hfirst) hin (List.mem_singleton_self _)
    have hagree : Agree P c.state c.readyProposals (signed.payload :: done) :=
      ha.mono (List.forall_mem_cons.mpr ⟨hmem, hdone⟩)
    have hrest := ih (h.next hkeys hj hk hu hagree)
      (fun k' hk' => hready k' (List.mem_cons_of_mem _ hk')) hnodup
      (List.forall_mem_append.mpr ⟨hdone, List.forall_mem_singleton.mpr hmem⟩)
    rw [List.append_assoc r.2] at hrest
    exact hrest

theorem congr (h : TakenUp P c done r) (hperm : done.Perm done') : TakenUp P c done' r := by
  have hmem : ∀ p, p ∈ done ↔ p ∈ done' := fun _ => hperm.mem_iff
  have hlength := (hperm.filter fun p =>
    !c.state.pendingBlocks.containsKey (p.block.hash P)).length_eq
  obtain ⟨⟨hconfig, hpending, hsize, hmoved, hunmoved, hvoted, hunvoted, hactions⟩, hself, hlimits,
    hparked, hinflight⟩ := h
  simp only [hmem, hlength] at *
  exact ⟨⟨hconfig, hpending, hsize, hmoved, hunmoved, hvoted, hunvoted, hactions⟩, hself, hlimits,
    hparked, hinflight⟩

theorem locked_eq (h : TakenUp P c done r) (h' : TakenUp P c done r') :
    r'.1.state.locked = r.1.state.locked := by
  rcases h.replayed.locked_cases with ⟨hsame, hnone⟩ | ⟨m, hm, l, hl, hlocked⟩
  · rw [hsame, h'.replayed.unmoved hnone]
  · rw [hlocked, h'.replayed.moved m hm l hl]

theorem voted_eq (h : TakenUp P c done r) (h' : TakenUp P c done r') :
    r'.1.state.lastVotedView = r.1.state.lastVotedView ∧
      r'.1.state.highQc = r.1.state.highQc := by
  rcases h.replayed.voted_cases with ⟨hnone, hview, hqc⟩ | ⟨q, hq, hvote, -⟩
  · obtain ⟨hview', hqc'⟩ := h'.replayed.unvoted hnone
    exact ⟨hview'.trans hview.symm, hqc'.trans hqc.symm⟩
  · obtain ⟨hview, hqc⟩ := h.replayed.voted q hq hvote
    obtain ⟨hview', hqc'⟩ := h'.replayed.voted q hq hvote
    exact ⟨hview'.trans hview.symm, hqc'.trans hqc.symm⟩

theorem sameContents (h : TakenUp P c done r) (h' : TakenUp P c done r') :
    SameContents r.1 r'.1 where
  selfId := h'.selfId.trans h.selfId.symm
  limits := h'.limits.trans h.limits.symm
  currentView := h'.replayed.config.currentView.trans h.replayed.config.currentView.symm
  validatorSet := h'.replayed.config.validatorSet.trans h.replayed.config.validatorSet.symm
  locked := h.locked_eq h'
  lastVotedView := (h.voted_eq h').1
  highQc := (h.voted_eq h').2
  pendingBlocks := fun x => Option.ext fun b =>
    (h.replayed.pending x b).trans (h'.replayed.pending x b).symm
  parkedProposals := fun k => (h.parked k).trans (h'.parked k).symm
  blockSyncInflight := fun k => (h.inflight k).trans (h'.inflight k).symm

end TakenUp

theorem nodup_filterMap_parked (hkeys : c.ParkedByHash P) {ks : List BlockHash}
    (hnodup : ks.Nodup) : (ks.filterMap c.parked?).Nodup := by
  refine hnodup.filterMap fun k k' p hk hk' => ?_
  obtain ⟨signed, hget, rfl⟩ := parked?_eq_some_iff.mp hk
  obtain ⟨signed', hget', hsame⟩ := parked?_eq_some_iff.mp hk'
  rw [← hkeys k signed hget, ← hkeys k' signed' hget', hsame]

theorem takenUp_order (hkeys : c.ParkedByHash P) (hj : JudgedApart P c.state c.readyProposals)
    (ha : Agree P c.state c.readyProposals c.readyProposals) (order : IterOrder) :
    TakenUp P c c.readyProposals
      (c.replayIn P (order.apply c.readyParked)) := by
  have hperm := order.perm c.readyParked
  have hnodup := nodup_filterMap_parked hkeys (hperm.nodup_iff.mpr c.nodup_readyParked)
  have htaken := (TakenUp.nil P c).replayIn hkeys hj ha (fun k hk => hperm.mem_iff.mp hk)
    hnodup (List.forall_mem_nil _)
  exact htaken.congr (hperm.filterMap c.parked?)

/-- With proposals that are judged apart and agree, the order is of no account. -/
theorem orderIndependent_of_agree {v : ℕ} (hkeys : c.ParkedByHash P)
    (hj : JudgedApart P (c.enterView v).state (c.enterView v).readyProposals)
    (ha : Agree P (c.enterView v).state (c.enterView v).readyProposals
      (c.enterView v).readyProposals) :
    c.OrderIndependent P v := by
  intro order order'
  have hkeys' : (c.enterView v).ParkedByHash P := hkeys
  have h := takenUp_order hkeys' hj ha order
  have h' := takenUp_order hkeys' hj ha order'
  exact sameOutcome_of_replay (h.sameContents h') fun a _ =>
    (h.replayed.actions a).trans (h'.replayed.actions a).symm

/-- A single ready proposal comes in one order only. -/
theorem orderIndependent_of_length_le {v : ℕ}
    (hone : (c.enterView v).readyParked.length ≤ 1) : c.OrderIndependent P v := by
  intro order order'
  have hsame : order.apply (c.enterView v).readyParked =
      order'.apply (c.enterView v).readyParked := by
    have hperm := (order.perm (c.enterView v).readyParked).trans
      (order'.perm (c.enterView v).readyParked).symm
    have hlen : (order.apply (c.enterView v).readyParked).length ≤ 1 :=
      (order.perm (c.enterView v).readyParked).length_eq.trans_le hone
    generalize order.apply (c.enterView v).readyParked = ks at hperm hlen
    cases ks with
    | nil => exact (List.nil_perm.mp hperm).symm
    | cons k ks =>
      obtain rfl : ks = [] := List.length_eq_zero_iff.mp (by simpa using hlen)
      exact List.singleton_perm.mp hperm
  refine sameOutcome_of_replay ?_ fun a _ => by rw [hsame]
  rw [hsame]
  exact ⟨rfl, rfl, rfl, rfl, rfl, rfl, rfl, .refl _, .refl _, .refl _⟩

end HotStuffCore

end Boule
