import Boule.Node.ViewNet

/-! When timeouts take a network on, and when they cannot: certificates of timeouts are not passed
on, so that a vote that reaches only some of the validators can leave them in different views. -/
namespace Boule
open ConsensusNode

namespace ValidatorSet

theorem weightIn_members (vs : ValidatorSet) :
    vs.weightIn vs.members.toFinset = vs.totalWeight :=
  vs.sum_members

end ValidatorSet

namespace ViewNet
section
variable (P : Primitives) (R : HistoryPrimitives) (chainId : ChainId) (minVEffDelay capacity : ℕ)
  (vs : ValidatorSet) (byz : Finset ValidatorId) (keyOf : ValidatorId → NodeId)
  (sign : NodeId → TimeoutVote → ℕ)

/-- No vote throws out a bucket that its teller may still need. -/
def Roomy (net : ViewNet) : ViewInput → Prop
  | .tell id input => (net.tellers id).Roomy capacity input
  | .timer id view =>
    ((net.tell P R chainId minVEffDelay capacity id (.pacemaker (.onTimeout view))).tellers
      id).Roomy capacity (.timeoutVote (net.ballot keyOf sign id view) true)

instance (net : ViewNet) :
    DecidablePred (net.Roomy P R chainId minVEffDelay capacity keyOf sign)
  | .tell _ _ => inferInstanceAs (Decidable (TimeoutTeller.Roomy _ _ _))
  | .timer _ _ => inferInstanceAs (Decidable (TimeoutTeller.Roomy _ _ _))

/-- A sound network in which every honest member is in the view that its inputs take it to. -/
structure Placed (net : ViewNet) : Prop extends net.Sound vs byz keyOf where
  settled : ∀ id ∈ honest vs byz, (net.tellers id).Settled vs keyOf (net.logs vs keyOf id)

variable {P R chainId minVEffDelay capacity vs byz keyOf sign} {net : ViewNet}

theorem Placed.places (h : net.Placed vs byz keyOf) : ∀ id ∈ honest vs byz,
    (net.logs vs keyOf id).Places vs.viewRule (net.views id) :=
  fun id hid => (h.settled id hid).places

theorem Placed.tell (hbyz : 3 * vs.weightIn byz ≤ vs.totalWeight) (h : net.Placed vs byz keyOf)
    {id : ValidatorId} {input : TellerInput}
    (hallowed : (net.tellers id).Allowed P R chainId minVEffDelay capacity input)
    (hgenuine : net.Genuine vs byz keyOf input)
    (hroom : (net.tellers id).Roomy capacity input) :
    (net.tell P R chainId minVEffDelay capacity id input).Placed vs byz keyOf := by
  refine ⟨h.toSound.tell hbyz hallowed hgenuine, fun i hi => ?_⟩
  rw [tellers_tell, logs_tell]
  split_ifs with hid
  · subst hid
    refine (h.settled i hi).step hallowed (fun u hends => ?_) hroom
    have hvoters := h.heard_tell P R chainId minVEffDelay capacity i hgenuine i hi u
    rw [logs_tell, if_pos rfl] at hvoters
    exact h.fits hbyz hvoters hends
  · exact h.settled i hi

variable (P R chainId minVEffDelay capacity) in
theorem Placed.tick (hbyz : 3 * vs.weightIn byz ≤ vs.totalWeight) (h : net.Placed vs byz keyOf)
    (id : ValidatorId) (view : ℕ) : (net.tell P R chainId minVEffDelay capacity id
      (.pacemaker (.onTimeout view))).Placed vs byz keyOf :=
  h.tell hbyz trivial trivial fun _ _ _ hout => hout

theorem Placed.cast (h : net.Placed vs byz keyOf) {id : ValidatorId} {signed : Signed TimeoutVote}
    (hsigned : ∀ r ∈ honest vs byz, signed.signer = keyOf r →
      signed.payload.view ≤ net.views r ∧ signed.payload.view + 1 < 2 ^ 64) :
    (net.cast id signed).Placed vs byz keyOf :=
  ⟨h.toSound.cast hsigned, h.settled⟩

theorem Placed.step (hbyz : 3 * vs.weightIn byz ≤ vs.totalWeight)
    (hinj : ∀ a ∈ vs.members, ∀ b ∈ vs.members, keyOf a = keyOf b → a = b)
    (h : net.Placed vs byz keyOf) {input : ViewInput}
    (hadmits : net.Admits P R chainId minVEffDelay capacity vs byz keyOf input)
    (hroom : net.Roomy P R chainId minVEffDelay capacity keyOf sign input) :
    (net.step P R chainId minVEffDelay capacity keyOf sign input).Placed vs byz keyOf := by
  cases input with
  | tell id input => exact h.tell hbyz hadmits.2.1 hadmits.2.2 hroom
  | timer id view =>
    obtain ⟨hmem, hid, hfits⟩ := hadmits
    have hticked := h.tick P R chainId minVEffDelay capacity hbyz id view
    simp only [ViewNet.step]
    split_ifs with hout
    · refine Placed.tell hbyz (hticked.cast fun r hr hsigner => ?_) trivial
        (fun r _ _ _ => ?_) hroom
      · rw [views_ticked]
        exact Sound.ballot_ok hinj ⟨hmem, hid⟩ (currentView_of_timesOut hout) hfits r hr hsigner
      · exact ⟨_, List.mem_cons_self .., rfl, rfl⟩
    · exact hticked

theorem placed_start {nodes : ValidatorId → ConsensusNode} (storages : ValidatorId → Storage)
    (hnodes : ∀ id ∈ honest vs byz, (nodes id).KnowsKeys vs keyOf ∧ (nodes id).currentView = 0) :
    (start storages nodes).Placed vs byz keyOf :=
  ⟨sound_start storages hnodes, fun id hid =>
    TimeoutTeller.settled_start (hnodes id hid).1 (hnodes id hid).2 _⟩

/-- All honest members together hold a quorum. -/
theorem ends_of_honest (hbyz : 3 * vs.weightIn byz < vs.totalWeight) (A : Finset ValidatorId)
    (hA : ∀ r ∈ honest vs byz, r ∈ A) : vs.viewRule.ends A := by
  have hsub : vs.members.toFinset ⊆ A ∪ byz := by
    intro x hx
    by_cases hxb : x ∈ byz
    · exact Finset.mem_union_right _ hxb
    · exact Finset.mem_union_left _ (hA x ⟨List.mem_toFinset.mp hx, hxb⟩)
  have hle := Quorum.weight_mono vs.weightOf hsub
  have hsum := Quorum.weight_union_add_inter vs.weightOf A byz
  have htotal : Quorum.weight vs.weightOf vs.members.toFinset = vs.totalWeight :=
    vs.weightIn_members
  show vs.quorumWeightThreshold ≤ _
  rw [vs.quorumWeightThreshold_le_iff]
  unfold ValidatorSet.weightIn at hbyz ⊢
  omega

end
end ViewNet

/-- Timeouts take the network on: where every timeout vote and certificate that one honest member
was handed, about views up to `k`, was handed to all of them, and each of them has timed out in
the view it is in, if that is not above `k`, there all honest members are above `k`. -/
theorem views_advance (P : Primitives) (R : HistoryPrimitives) (chainId : ChainId)
    (minVEffDelay capacity : ℕ) {vs : ValidatorSet} {byz : Finset ValidatorId}
    {keyOf : ValidatorId → NodeId} (sign : NodeId → TimeoutVote → ℕ)
    (hbyz : 3 * vs.weightIn byz < vs.totalWeight) (storages : ValidatorId → Storage)
    {nodes : ValidatorId → ConsensusNode}
    (hnodes : ∀ id ∈ vs.members, id ∉ byz →
      (nodes id).KnowsKeys vs keyOf ∧ (nodes id).currentView = 0) {inputs : List ViewInput}
    (h : Along (ViewNet.step P R chainId minVEffDelay capacity keyOf sign)
      (fun net input => net.Admits P R chainId minVEffDelay capacity vs byz keyOf input ∧
        net.Roomy P R chainId minVEffDelay capacity keyOf sign input) (.start storages nodes)
      inputs) {net : ViewNet} (hnet : net = run
        (ViewNet.step P R chainId minVEffDelay capacity keyOf sign) (.start storages nodes) inputs)
    {k : ℕ}
    (hshared : ∀ a ∈ vs.members, a ∉ byz → ∀ b ∈ vs.members, b ∉ byz →
      (∀ vote ∈ timeoutVotes (net.inputs a), vote.2 ≤ k → vote ∈ timeoutVotes (net.inputs b)) ∧
        toldViews (net.inputs a) ⊆ toldViews (net.inputs b))
    (hvoted : ∀ a ∈ vs.members, a ∉ byz → net.views a ≤ k → ∀ b ∈ vs.members, b ∉ byz →
      (keyOf a, net.views a) ∈ timeoutVotes (net.inputs b)) :
    ∀ id ∈ vs.members, id ∉ byz → k < net.views id := by
  intro id hmem hid
  have hinj := ViewNet.keyOf_injective (hnodes id hmem hid).1
  have hplaced : net.Placed vs byz keyOf := by
    rw [hnet]
    exact h.invariant (fun net input hi hs => ViewNet.Placed.step hbyz.le hinj hs hi.1 hi.2)
      (ViewNet.placed_start storages fun id hid => hnodes id hid.1 hid.2)
  refine ViewSync.all_past (ViewNet.ends_of_honest hbyz) hplaced.places hplaced.backed
    (fun a ha b hb u hu r hr => ?_) (fun a ha b hb => (hshared a ha.1 ha.2 b hb.1 hb.2).2)
    (fun a ha hle b hb => ?_) id ⟨hmem, hid⟩
  · obtain ⟨hr, hvote⟩ := mem_voters.mp hr
    exact mem_voters.mpr ⟨hr, (hshared a ha.1 ha.2 b hb.1 hb.2).1 _ hvote hu⟩
  · exact mem_voters.mpr ⟨ha.1, hvoted a ha.1 ha.2 hle b hb.1 hb.2⟩

namespace Sample

/-- All honest validators time out in view 1 and hear of each other. -/
def hearingAll : List ViewInput :=
  entering ++ [.timer 1 1, .timer 2 1, .timer 3 1, .tell 1 (timeoutOf 2), .tell 3 (timeoutOf 1),
    .tell 2 (timeoutOf 3), .tell 2 (timeoutOf 1), .tell 1 (timeoutOf 3), .tell 3 (timeoutOf 2)]

theorem hearingAll_advance :
    1 < (run viewStep (.start (fun _ => .empty) booted) hearingAll).views 1 ∧
      1 < (run viewStep (.start (fun _ => .empty) booted) hearingAll).views 2 ∧
        1 < (run viewStep (.start (fun _ => .empty) booted) hearingAll).views 3 := by
  obtain ⟨h, hshared, hvoted⟩ :
      Along viewStep (fun net input =>
        net.Admits timed allChanges chainId config.minVEffDelay 8 validators {4} id input ∧
          net.Roomy timed allChanges chainId config.minVEffDelay 8 id (fun _ _ => 0) input)
        (.start (fun _ => .empty) booted) hearingAll ∧
      (∀ a ∈ validators.members, a ∉ ({4} : Finset ValidatorId) → ∀ b ∈ validators.members,
        b ∉ ({4} : Finset ValidatorId) →
        (∀ vote ∈ timeoutVotes
            ((run viewStep (.start (fun _ => .empty) booted) hearingAll).inputs a), vote.2 ≤ 1 →
          vote ∈ timeoutVotes
            ((run viewStep (.start (fun _ => .empty) booted) hearingAll).inputs b)) ∧
        toldViews ((run viewStep (.start (fun _ => .empty) booted) hearingAll).inputs a) ⊆
          toldViews ((run viewStep (.start (fun _ => .empty) booted) hearingAll).inputs b)) ∧
      ∀ a ∈ validators.members, a ∉ ({4} : Finset ValidatorId) →
        (run viewStep (.start (fun _ => .empty) booted) hearingAll).views a ≤ 1 →
        ∀ b ∈ validators.members, b ∉ ({4} : Finset ValidatorId) →
          (a, (run viewStep (.start (fun _ => .empty) booted) hearingAll).views a) ∈ timeoutVotes
            ((run viewStep (.start (fun _ => .empty) booted) hearingAll).inputs b) := by
    decide +kernel
  have hall := views_advance timed allChanges chainId config.minVEffDelay 8 _
    (by decide +kernel) (fun _ => .empty) (fun id' _ _ => booted_knowsKeys id') h rfl hshared hvoted
  exact ⟨hall 1 (by decide) (by decide), hall 2 (by decide) (by decide),
    hall 3 (by decide) (by decide)⟩

end Sample

/-! ### Networks that timeouts do not take on -/

namespace ViewNet
section
variable (vs : ValidatorSet) (byz : Finset ValidatorId) (keyOf : ValidatorId → NodeId)

/-- Whatever the honest members may still hear of each other in the views they are in, it takes none
of them on. -/
def Wedged (net : ViewNet) : Prop :=
  ViewSync.Stuck vs.viewRule (honest vs byz) net.views (fun u => ↑(net.casters vs byz keyOf u))
    (net.logs vs keyOf)

/-- Nobody hears of a certificate or of a Byzantine member. -/
def Quiet : ViewInput → Prop
  | .tell _ (.timeoutVote signed _) => ∃ r ∈ vs.members, r ∉ byz ∧ signed.signer = keyOf r
  | .tell _ (.pacemaker (.onQc _)) => False
  | _ => True

variable {vs byz keyOf} {P : Primitives} {R : HistoryPrimitives} {chainId : ChainId}
  {minVEffDelay capacity : ℕ} {sign : NodeId → TimeoutVote → ℕ} {net : ViewNet}

/-- A wedged network in which every honest member is still in its old view. -/
structure Halted (vs : ValidatorSet) (byz : Finset ValidatorId) (keyOf : ValidatorId → NodeId)
    (views : ValidatorId → ℕ) (net : ViewNet) : Prop extends net.Placed vs byz keyOf where
  wedged : net.Wedged vs byz keyOf
  views : ∀ id ∈ honest vs byz, net.views id = views id

variable {views : ValidatorId → ℕ}

theorem Halted.tell (hbyz : 3 * vs.weightIn byz ≤ vs.totalWeight)
    (hinj : ∀ a ∈ vs.members, ∀ b ∈ vs.members, keyOf a = keyOf b → a = b)
    (h : net.Halted vs byz keyOf views) {id : ValidatorId} {input : TellerInput}
    (hallowed : (net.tellers id).Allowed P R chainId minVEffDelay capacity input)
    (hgenuine : net.Genuine vs byz keyOf input)
    (hroom : (net.tellers id).Roomy capacity input)
    (hquiet : Quiet vs byz keyOf (.tell id input)) :
    (net.tell P R chainId minVEffDelay capacity id input).Halted vs byz keyOf views := by
  have hplaced := h.toPlaced.tell (P := P) (R := R) hbyz hallowed hgenuine hroom
  have htold : ∀ i ∈ honest vs byz,
      ((net.tell P R chainId minVEffDelay capacity id input).logs vs keyOf i).told ⊆
        (net.logs vs keyOf i).told := by
    intro i _ u hu
    rw [logs_tell] at hu
    split_ifs at hu with hid
    · subst hid
      rcases mem_told_cons.mp hu with hqc | hu
      · cases input with
        | pacemaker event =>
          cases event with
          | onQc v => exact hquiet.elim
          | _ => cases hqc
        | _ => cases hqc
      · exact hu
    · exact hu
  have hvoters : ∀ i ∈ honest vs byz, ∀ u,
      ∀ r ∈ ((net.tell P R chainId minVEffDelay capacity id input).logs vs keyOf i).voters u,
        ViewSync.Audible (honest vs byz) net.views (fun u => ↑(net.casters vs byz keyOf u))
          (net.logs vs keyOf i) u r := by
    intro i hi u r hr
    by_cases hrh : r ∈ honest vs byz
    · exact .inr (.inl (h.heard_tell P R chainId minVEffDelay capacity id hgenuine i hi u r hr hrh))
    · rw [logs_tell] at hr
      split_ifs at hr with hid
      · subst hid
        rcases mem_voters_cons.mp hr with hold | ⟨hmem, hvote⟩
        · exact .inl hold
        · cases input with
          | timeoutVote signed trusted =>
            obtain ⟨r', hmem', hr', hsigner⟩ := hquiet
            obtain ⟨hkey, -⟩ := Prod.mk.inj (Option.some.inj hvote)
            obtain rfl := hinj r hmem r' hmem' (hkey.symm.trans hsigner)
            exact absurd ⟨hmem, hr'⟩ hrh
          | _ => cases hvote
      · exact .inl hr
  have hviews := h.wedged.views_eq h.places hplaced.places (fun i _ => logs_le_tell id i input)
    htold hvoters
  exact ⟨hplaced, h.wedged.step hviews hvoters fun u r hr => .inl hr,
    fun i hi => (hviews i hi).trans (h.views i hi)⟩

theorem Halted.cast (h : net.Halted vs byz keyOf views) {id : ValidatorId}
    {signed : Signed TimeoutVote}
    (hsigned : ∀ r ∈ honest vs byz, signed.signer = keyOf r →
      signed.payload.view = net.views r ∧ signed.payload.view + 1 < 2 ^ 64) :
    (net.cast id signed).Halted vs byz keyOf views := by
  refine ⟨h.toPlaced.cast fun r hr hs => ⟨(hsigned r hr hs).1.le, (hsigned r hr hs).2⟩,
    h.wedged.step (fun _ _ => rfl) (fun _ _ _ _ hr => .inl hr) (fun u r hr => ?_), h.views⟩
  obtain ⟨hrh, cast, hmem, hsigner, hview⟩ := mem_casters.mp hr
  rcases List.mem_cons.mp hmem with rfl | hmem
  · exact .inr ⟨hrh, (hsigned r hrh hsigner).1.symm.trans hview⟩
  · exact .inl (mem_casters.mpr ⟨hrh, cast, hmem, hsigner, hview⟩)

theorem Halted.step (hbyz : 3 * vs.weightIn byz ≤ vs.totalWeight)
    (hinj : ∀ a ∈ vs.members, ∀ b ∈ vs.members, keyOf a = keyOf b → a = b)
    (h : net.Halted vs byz keyOf views) {input : ViewInput}
    (hadmits : net.Admits P R chainId minVEffDelay capacity vs byz keyOf input)
    (hroom : net.Roomy P R chainId minVEffDelay capacity keyOf sign input)
    (hquiet : Quiet vs byz keyOf input) :
    (net.step P R chainId minVEffDelay capacity keyOf sign input).Halted vs byz keyOf views := by
  cases input with
  | tell id input => exact h.tell hbyz hinj hadmits.2.1 hadmits.2.2 hroom hquiet
  | timer id view =>
    obtain ⟨hmem, hid, hfits⟩ := hadmits
    have hticked : (net.tell P R chainId minVEffDelay capacity id
        (.pacemaker (.onTimeout view))).Halted vs byz keyOf views :=
      h.tell hbyz hinj trivial trivial (fun _ _ _ hout => hout) trivial
    simp only [ViewNet.step]
    split_ifs with hout
    · have hview : (net.ballot keyOf sign id view).payload.view = net.views id :=
        (timeoutPayload_view _ _ _).trans (currentView_of_timesOut hout)
      refine Halted.tell hbyz hinj (hticked.cast fun r hr hsigner => ?_) trivial
        (fun r _ _ _ => ?_) hroom ⟨id, hmem, hid, rfl⟩
      · obtain rfl := hinj id hmem r hr.1 hsigner
        rw [views_ticked]
        exact ⟨hview, (congrArg (· + 1) (timeoutPayload_view _ _ _)).trans_lt hfits⟩
      · exact ⟨_, List.mem_cons_self .., rfl, rfl⟩
    · exact hticked

end
end ViewNet

/-- A wedged network stays wedged: as long as nobody hears of a certificate or of a Byzantine
member, no timer and no vote, in whatever order, takes an honest member to another view. -/
theorem views_wedged (P : Primitives) (R : HistoryPrimitives) (chainId : ChainId)
    (minVEffDelay capacity : ℕ) {vs : ValidatorSet} {byz : Finset ValidatorId}
    {keyOf : ValidatorId → NodeId} (sign : NodeId → TimeoutVote → ℕ)
    (hbyz : 3 * vs.weightIn byz ≤ vs.totalWeight) (storages : ValidatorId → Storage)
    {nodes : ValidatorId → ConsensusNode}
    (hnodes : ∀ id ∈ vs.members, id ∉ byz →
      (nodes id).KnowsKeys vs keyOf ∧ (nodes id).currentView = 0) {before after : List ViewInput}
    (h : Along (ViewNet.step P R chainId minVEffDelay capacity keyOf sign)
      (fun net input => net.Admits P R chainId minVEffDelay capacity vs byz keyOf input ∧
        net.Roomy P R chainId minVEffDelay capacity keyOf sign input) (.start storages nodes)
      (before ++ after))
    (hwedged : (run (ViewNet.step P R chainId minVEffDelay capacity keyOf sign)
      (.start storages nodes) before).Wedged vs byz keyOf)
    (hquiet : ∀ input ∈ after, ViewNet.Quiet vs byz keyOf input) :
    ∀ id ∈ vs.members, id ∉ byz →
      (run (ViewNet.step P R chainId minVEffDelay capacity keyOf sign) (.start storages nodes)
        (before ++ after)).views id =
      (run (ViewNet.step P R chainId minVEffDelay capacity keyOf sign) (.start storages nodes)
        before).views id := by
  intro id hmem hid
  have hinj := ViewNet.keyOf_injective (hnodes id hmem hid).1
  obtain ⟨hbefore, hafter⟩ := h.append
  have hplaced := hbefore.invariant
    (fun net input hi hs => ViewNet.Placed.step hbyz hinj hs hi.1 hi.2)
    (ViewNet.placed_start storages fun id hid => hnodes id hid.1 hid.2)
  rw [run_append]
  generalize run (ViewNet.step P R chainId minVEffDelay capacity keyOf sign)
    (.start storages nodes) before = net at hafter hwedged hplaced ⊢
  have hend := (hafter.and (Along.of_forall hquiet)).invariant
    (fun net' input hi hs => ViewNet.Halted.step hbyz hinj hs hi.1.1 hi.1.2 hi.2)
    (⟨hplaced, hwedged, fun _ _ => rfl⟩ : net.Halted vs byz keyOf net.views)
  exact hend.views id ⟨hmem, hid⟩

namespace Sample

/-- Validator 1 has left view 1 on the votes of the others, of which that of the Byzantine validator
4 reaches nobody else. -/
def leftBehind : List ViewInput :=
  hearingThree ++ [.tell 3 (timeoutOf 2), .tell 2 (timeoutOf 3)]

theorem leftBehind_wedged : (run viewStep (.start (fun _ => .empty) booted) leftBehind).Wedged
    validators {4} id := by
  obtain ⟨hfirst, hothers, hsent, hinputs, hinputs'⟩ :
      (run viewStep (.start (fun _ => .empty) booted) leftBehind).views 1 = 2 ∧
      (∀ i ∈ [2, 3], (run viewStep (.start (fun _ => .empty) booted) leftBehind).views i = 1) ∧
      (∀ signed ∈ (run viewStep (.start (fun _ => .empty) booted) leftBehind).sent,
        signed.payload.view = 1 ∧ signed.signer ∈ [2, 3]) ∧
      (∀ vote ∈ timeoutVotes ((run viewStep (.start (fun _ => .empty) booted) leftBehind).inputs 1),
        vote.2 = 1) ∧
      (∀ i ∈ [2, 3], ∀ vote ∈ timeoutVotes
        ((run viewStep (.start (fun _ => .empty) booted) leftBehind).inputs i),
          vote.2 = 1 ∧ vote.1 ∈ [2, 3]) := by decide +kernel
  generalize run viewStep (.start (fun _ => .empty) booted) leftBehind = net at *
  have hhonest : ∀ i ∈ ViewNet.honest validators {4}, i = 1 ∨ i ∈ [2, 3] := by
    intro i hi
    have hmem : i ∈ [1, 2, 3, 4] := hi.1
    simp only [List.mem_cons, List.not_mem_nil, or_false] at hmem ⊢
    rcases hmem with hone | htwo | hthree | hfour
    · exact .inl hone
    · exact .inr (.inl htwo)
    · exact .inr (.inr hthree)
    · exact absurd (Finset.mem_singleton.mpr hfour) hi.2
  intro i hi u A hA
  -- in view 1 the voters are 2 and 3, in every other view that is not over only 1
  have hsub : net.views i ≤ u → (u = 1 → A ⊆ {2, 3}) ∧ (u ≠ 1 → A ⊆ {1}) := by
    intro hu
    have hvoter : ∀ r ∈ A, u = 1 ∧ r ∈ [2, 3] ∨ u ≠ 1 ∧ r = 1 := by
      intro r hr
      rcases hA r hr with hheard | hcast | ⟨hrh, hat⟩
      · have hvote := (mem_voters.mp hheard).2
        rcases hhonest i hi with rfl | hi
        · have hview := hinputs _ hvote
          simp only at hview
          omega
        · exact .inl (hinputs' i hi _ hvote)
      · obtain ⟨-, signed, hmem, hsigner, rfl⟩ := ViewNet.mem_casters.mp hcast
        obtain ⟨hview, hby⟩ := hsent signed hmem
        exact .inl ⟨hview, (show signed.signer = r from hsigner) ▸ hby⟩
      · rcases hhonest r hrh with rfl | hr
        · exact .inr ⟨by omega, rfl⟩
        · exact .inl ⟨hat.symm.trans (hothers r hr), hr⟩
    refine ⟨fun hone r hr => ?_, fun hone r hr => ?_⟩
    · have hr := ((hvoter r hr).resolve_right fun h => h.1 hone).2
      simpa using hr
    · exact Finset.mem_singleton.mpr ((hvoter r hr).resolve_left fun h => hone h.1).2
  have hpair : ¬ validators.viewRule.ends {2, 3} := by decide
  have hsingle : ¬ validators.viewRule.begins {1} := by decide
  constructor
  · intro hu hends
    obtain ⟨hone, hother⟩ := hsub hu
    by_cases hu1 : u = 1
    · exact hpair (validators.viewRule.ends_mono (hone hu1) hends)
    · exact hsingle (validators.viewRule.begins_mono (hother hu1)
        (validators.viewRule.begins_of_ends hends))
  · intro hu hbegins
    have hu1 : u ≠ 1 := by
      rcases hhonest i hi with rfl | hi
      · omega
      · have hview := hothers i hi
        omega
    exact hsingle (validators.viewRule.begins_mono ((hsub hu.le).2 hu1) hbegins)

/-- Validators 1 and 2 time out, and all honest validators hear of it. -/
def timingOutInVain : List ViewInput :=
  [.timer 1 2, .tell 2 (.timeoutVote ⟨(booted 1).persistFreshTimeoutVote 2, 1, 0⟩ true),
    .timer 2 1, .tell 3 (.timeoutVote ⟨(booted 1).persistFreshTimeoutVote 2, 1, 0⟩ true),
    .tell 1 (timeoutOf 2)]

theorem leftBehind_stays :
    (run viewStep (.start (fun _ => .empty) booted) leftBehind).views 1 = 2 ∧
    (run viewStep (.start (fun _ => .empty) booted) leftBehind).views 2 = 1 ∧
    ∀ id ∈ validators.members, id ∉ ({4} : Finset ValidatorId) →
      (run viewStep (.start (fun _ => .empty) booted) (leftBehind ++ timingOutInVain)).views id =
        (run viewStep (.start (fun _ => .empty) booted) leftBehind).views id := by
  obtain ⟨hfirst, hsecond, h⟩ :
      (run viewStep (.start (fun _ => .empty) booted) leftBehind).views 1 = 2 ∧
      (run viewStep (.start (fun _ => .empty) booted) leftBehind).views 2 = 1 ∧
      Along viewStep (fun net input =>
        net.Admits timed allChanges chainId config.minVEffDelay 8 validators {4} id input ∧
          net.Roomy timed allChanges chainId config.minVEffDelay 8 id (fun _ _ => 0) input)
        (.start (fun _ => .empty) booted) (leftBehind ++ timingOutInVain) := by
    decide +kernel
  refine ⟨hfirst, hsecond, views_wedged timed allChanges chainId config.minVEffDelay 8 _
    (by decide +kernel) (fun _ => .empty) (fun id' _ _ => booted_knowsKeys id') h
    leftBehind_wedged ?_⟩
  have hkeys : ∀ r ∈ [1, 2], r ∈ validators.members ∧ r ∉ ({4} : Finset ValidatorId) := by decide
  have hone := hkeys 1 (by decide)
  have htwo := hkeys 2 (by decide)
  intro input hmem
  simp only [timingOutInVain, List.mem_cons, List.not_mem_nil, or_false] at hmem
  rcases hmem with rfl | rfl | rfl | rfl | rfl
  · trivial
  · exact ⟨1, hone.1, hone.2, rfl⟩
  · trivial
  · exact ⟨1, hone.1, hone.2, rfl⟩
  · exact ⟨2, htwo.1, htwo.2, rfl⟩

end Sample

end Boule
