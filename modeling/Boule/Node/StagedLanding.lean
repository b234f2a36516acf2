import Boule.Node.StagedUpdates

/-! Whether the command that is minted from the staged updates can land. -/
namespace Boule
open ConsensusNode

/-! ### The command of a list of updates -/

/-- The last weights of the seated validators, in the order of their ids. -/
def seatedTargets (updates : List ValidatorUpdate) (current : ValidatorSet) :
    List (NodeId × ℕ) :=
  ((Table.toList (updates.foldl (fun t u => t.insert u.nodeId u.weight)
    (∅ : Table NodeId ℕ))).filter fun e => current.contains e.1).insertionSort
      fun a b => a.1 ≤ b.1

theorem mem_seatedTargets {updates : List ValidatorUpdate} {current : ValidatorSet}
    {e : NodeId × ℕ} : e ∈ seatedTargets updates current ↔
      e.1 ∈ current.members ∧ lastUpdate updates e.1 = some e.2 := by
  obtain ⟨v, w⟩ := e
  rw [seatedTargets, List.mem_insertionSort, List.mem_filter, current.contains_iff,
    Table.mem_toList, get?_reconcile, Table.get?_empty, Option.or_none, and_comm]

theorem nodup_seatedTargets (updates : List ValidatorUpdate) (current : ValidatorSet) :
    ((seatedTargets updates current).map Prod.fst).Nodup := by
  refine ((List.perm_insertionSort _ _).map Prod.fst).nodup_iff.mpr ?_
  exact (Table.nodup_toList _).sublist (List.filter_sublist.map _)

/-- What the command of the updates is made of. -/
structure BringsTo (updates : List ValidatorUpdate) (current : ValidatorSet) (vEff : ℕ)
    (cmd : ReconfigCommand) : Prop where
  adds : cmd.adds = []
  vEff : cmd.vEff = vEff
  removes : cmd.removes =
    ((seatedTargets updates current).filter fun e => e.2 = 0).map Prod.fst
  changes : cmd.changes = ((seatedTargets updates current).filter fun e => e.2 ≠ 0).map
    fun e => ⟨e.1, UInt64.ofNat e.2⟩

theorem bringsTo_of_stagedUpdates {updates : List ValidatorUpdate} {current : ValidatorSet}
    {vEff : ℕ} {cmd : ReconfigCommand}
    (h : stagedUpdatesToReconfig updates current vEff = some cmd) :
    BringsTo updates current vEff cmd := by
  unfold stagedUpdatesToReconfig at h
  simp only at h
  split_ifs at h
  obtain rfl := Option.some.inj h
  exact ⟨rfl, rfl, rfl, rfl⟩

namespace BringsTo
variable {updates : List ValidatorUpdate} {current : ValidatorSet} {vEff : ℕ}
  {cmd : ReconfigCommand}

theorem mem_removes (h : BringsTo updates current vEff cmd) {v : NodeId} :
    v ∈ cmd.removes ↔ v ∈ current.members ∧ lastUpdate updates v = some 0 := by
  rw [h.removes]
  simp only [List.mem_map, List.mem_filter, decide_eq_true_iff, mem_seatedTargets]
  constructor
  · rintro ⟨⟨v, w⟩, ⟨he, rfl⟩, rfl⟩
    exact he
  · exact fun hv => ⟨(v, 0), ⟨hv, rfl⟩, rfl⟩

theorem mem_changes (h : BringsTo updates current vEff cmd) {change : WeightChange} :
    change ∈ cmd.changes ↔ ∃ w ≠ 0, change.nodeId ∈ current.members ∧
      lastUpdate updates change.nodeId = some w ∧ change.weight = UInt64.ofNat w := by
  rw [h.changes]
  simp only [List.mem_map, List.mem_filter, decide_eq_true_iff, mem_seatedTargets]
  constructor
  · rintro ⟨⟨v, w⟩, ⟨⟨hv, hw⟩, hne⟩, rfl⟩
    exact ⟨w, hne, hv, hw, rfl⟩
  · rintro ⟨w, hne, hv, hw, heq⟩
    refine ⟨(change.nodeId, w), ⟨⟨hv, hw⟩, hne⟩, ?_⟩
    rw [← heq]

theorem changeIds_eq (h : BringsTo updates current vEff cmd) :
    cmd.changeIds = ((seatedTargets updates current).filter fun e => e.2 ≠ 0).map Prod.fst := by
  unfold ReconfigCommand.changeIds
  rw [h.changes, List.map_map]
  rfl

theorem mem_changeIds (h : BringsTo updates current vEff cmd) {v : NodeId} :
    v ∈ cmd.changeIds ↔ v ∈ current.members ∧ ∃ w ≠ 0, lastUpdate updates v = some w := by
  rw [h.changeIds_eq]
  simp only [List.mem_map, List.mem_filter, decide_eq_true_iff, mem_seatedTargets]
  constructor
  · rintro ⟨⟨v, w⟩, ⟨⟨hv, hw⟩, hne⟩, rfl⟩
    exact ⟨hv, w, hne, hw⟩
  · rintro ⟨hv, w, hne, hw⟩
    exact ⟨(v, w), ⟨⟨hv, hw⟩, hne⟩, rfl⟩

theorem nodup_removes (h : BringsTo updates current vEff cmd) : cmd.removes.Nodup := by
  rw [h.removes]
  exact (nodup_seatedTargets updates current).sublist (List.filter_sublist.map _)

theorem wellFormed (h : BringsTo updates current vEff cmd) : cmd.WellFormed current where
  adds_nodup := by simp [ReconfigCommand.addIds, h.adds]
  changes_nodup := by
    rw [h.changeIds_eq]
    exact (nodup_seatedTargets updates current).sublist (List.filter_sublist.map _)
  adds_removes := by simp [ReconfigCommand.addIds, h.adds]
  removes_changes := by
    intro v hr hc
    obtain ⟨-, w, hne, hw⟩ := h.mem_changeIds.mp hc
    rw [(h.mem_removes.mp hr).2] at hw
    exact hne (Option.some.inj hw).symm
  adds_new := by simp [ReconfigCommand.addIds, h.adds]
  changes_member := fun v hv => (h.mem_changeIds.mp hv).1

theorem weight_ne_zero (h : BringsTo updates current vEff cmd)
    (hweights : ∀ u ∈ updates, u.weight < 2 ^ 64) {change : WeightChange}
    (hchange : change ∈ cmd.changes) : change.weight ≠ 0 := by
  intro hzero
  obtain ⟨w, hne, -, hw, heq⟩ := h.mem_changes.mp hchange
  obtain ⟨u, hu, -, rfl⟩ := mem_of_lastUpdate hw
  have hnat := congrArg UInt64.toNat (heq.symm.trans hzero)
  rw [UInt64.toNat_ofNat_of_lt' (hweights u hu)] at hnat
  exact hne hnat

/-- It is admissible in any view from which it takes effect late enough. -/
theorem admissible (h : BringsTo updates current vEff cmd)
    (hweights : ∀ u ∈ updates, u.weight < 2 ^ 64) {R : ReconfigPrimitives}
    {view minVEffDelay : ℕ} {chainId : ChainId} (hlt : vEff < 2 ^ 64)
    (hdelay : view + max minVEffDelay delayFloor ≤ vEff) :
    cmd.Admissible R current view minVEffDelay chainId where
  toWellFormed := h.wellFormed
  no_overflow := by omega
  delay := h.vEff ▸ hdelay
  adds_weight := by simp [h.adds]
  changes_weight := fun _ hchange => h.weight_ne_zero hweights hchange
  removes_nodup := h.nodup_removes
  adds_changes := by simp [ReconfigCommand.addIds, h.adds]
  removes_member := fun v hv => (h.mem_removes.mp hv).1
  pops := by simp [h.adds]
  consents := by simp [h.adds]

end BringsTo

/-! ### The set it leads to -/

/-- What a seated validator is to weigh after the updates. -/
def targetWeight (updates : List ValidatorUpdate) (current : ValidatorSet) (v : ValidatorId) :
    Option ℕ :=
  match lastUpdate updates v with
  | none => current.weightFor v
  | some w => if w = 0 then none else some w

theorem exists_weightFor {current : ValidatorSet} {v : ValidatorId} (h : v ∈ current.members) :
    ∃ w, current.weightFor v = some w := by
  obtain ⟨i, hi⟩ := Option.isSome_iff_exists.mp ((current.contains_iff v).mpr h)
  exact ⟨current.weightAt i, by rw [ValidatorSet.weightFor, hi]; rfl⟩

theorem targetWeight_eq_none {updates : List ValidatorUpdate} {current : ValidatorSet}
    {v : ValidatorId} (h : v ∈ current.members) :
    targetWeight updates current v = none ↔ lastUpdate updates v = some 0 := by
  unfold targetWeight
  cases lastUpdate updates v with
  | none =>
    obtain ⟨w, hw⟩ := exists_weightFor h
    simp [hw]
  | some w => simp

theorem length_filter_notMem {l r : List NodeId} (hl : l.Nodup) (hr : r.Nodup)
    (hsub : ∀ n ∈ r, n ∈ l) : (l.filter (· ∉ r)).length + r.length = l.length := by
  have hperm : (l.filter (· ∈ r)).Perm r := by
    refine (List.perm_ext_iff_of_nodup (hl.filter _) hr).mpr fun n => ?_
    rw [List.mem_filter, decide_eq_true_iff]
    exact and_iff_right_of_imp (hsub n)
  have hsplit := List.length_eq_length_filter_add (l := l) fun n => decide (n ∈ r)
  rw [hperm.length_eq] at hsplit
  have hneg : (l.filter fun n => !decide (n ∈ r)) = l.filter (· ∉ r) :=
    List.filter_congr fun n _ => by simp
  rw [hneg] at hsplit
  omega

namespace BringsTo
variable {updates : List ValidatorUpdate} {current newSet : ValidatorSet} {vEff : ℕ}
  {cmd : ReconfigCommand}

theorem length_nextMembers (h : BringsTo updates current vEff cmd) :
    (cmd.nextMembers current).length + cmd.removes.length = current.len := by
  rw [h.wellFormed.length_nextMembers, h.adds, List.length_nil, Nat.add_zero]
  exact length_filter_notMem current.nodup_members h.nodup_removes
    fun v hv => (h.mem_removes.mp hv).1

/-- The command's weights make a set. -/
theorem exists_newSet (h : BringsTo updates current vEff cmd)
    (hweights : ∀ u ∈ updates, u.weight < 2 ^ 64) :
    ∃ newSet, ValidatorSet.withWeights (cmd.nextMembers current) = .ok newSet := by
  have hne : ∀ e ∈ cmd.nextMembers current, e.2 ≠ 0 := by
    intro e he
    rcases (h.wellFormed.isNext.mem e).mp he with ⟨entry, hentry, -⟩ | ⟨change, hchange, rfl⟩ |
      ⟨hold, -, -⟩
    · rw [h.adds] at hentry
      cases hentry
    · exact h.weight_ne_zero hweights hchange
    · exact current.weights_ne_zero _ (List.of_mem_zip hold).2
  have hlt : (cmd.nextMembers current).length < 2 ^ 32 := by
    have hlen := h.length_nextMembers
    have hcurrent : current.len < 2 ^ 32 := current.length_lt
    omega
  unfold ValidatorSet.withWeights
  rw [dif_pos hne, dif_pos hlt]
  exact ⟨_, rfl⟩

theorem len_newSet (h : BringsTo updates current vEff cmd)
    (hs : ValidatorSet.withWeights (cmd.nextMembers current) = .ok newSet) :
    newSet.len + cmd.removes.length = current.len := by
  have hsorted : ValidatorSet.sortEntries (cmd.nextMembers current) = cmd.nextMembers current :=
    ValidatorSet.sortEntries_of_pairwise h.wellFormed.isNext.sorted
  have hlen : newSet.len = (cmd.nextMembers current).length := by
    rw [ValidatorSet.len, ← newSet.map_fst_iterWeighted, List.length_map,
      ValidatorSet.iterWeighted_of_withWeights hs, hsorted]
  rw [hlen]
  exact h.length_nextMembers

theorem weightFor_newSet (h : BringsTo updates current vEff cmd)
    (hweights : ∀ u ∈ updates, u.weight < 2 ^ 64)
    (hs : ValidatorSet.withWeights (cmd.nextMembers current) = .ok newSet) {v : ValidatorId}
    (hv : v ∈ current.members) : newSet.weightFor v = targetWeight updates current v := by
  unfold targetWeight
  cases hw : lastUpdate updates v with
  | none =>
    have hremoves : v ∉ cmd.removes := fun hr => by
      rw [(h.mem_removes.mp hr).2] at hw
      cases hw
    have hchanges : v ∉ cmd.changeIds := fun hc => by
      obtain ⟨-, w, -, hsome⟩ := h.mem_changeIds.mp hc
      rw [hsome] at hw
      cases hw
    obtain ⟨w, hold⟩ := exists_weightFor hv
    rw [hold]
    exact h.wellFormed.untouched hs hremoves hchanges hold
  | some w =>
    by_cases hzero : w = 0
    · subst hzero
      have hgone := h.wellFormed.removed hs (h.mem_removes.mpr ⟨hv, hw⟩)
      rw [ValidatorSet.contains, Option.isSome_eq_false_iff, Option.isNone_iff_eq_none] at hgone
      rw [ValidatorSet.weightFor, hgone]
      rfl
    · have hchanged := h.wellFormed.changed hs
        (h.mem_changes.mpr ⟨w, hzero, hv, hw, rfl⟩ : (⟨v, UInt64.ofNat w⟩ : WeightChange) ∈ _)
      obtain ⟨u, hu, -, rfl⟩ := mem_of_lastUpdate hw
      rw [UInt64.toNat_ofNat_of_lt' (hweights u hu)] at hchanged
      simp only [if_neg hzero]
      exact hchanged

end BringsTo

/-! ### The minted command -/

theorem lastUpdate_eq_none {updates : List ValidatorUpdate} {v : NodeId} :
    lastUpdate updates v = none ↔ ∀ u ∈ updates, u.nodeId ≠ v := by
  rw [lastUpdate, Option.map_eq_none_iff, List.getLast?_eq_none_iff, List.filter_eq_nil_iff]
  simp only [decide_eq_true_iff]

namespace StagingNode

/-- The jailed validators of the set. -/
def jailedSeated (s : StagingNode) (current : ValidatorSet) : List ValidatorId :=
  sortedSet (s.committedEvidence.filter current.contains)

/-- How many of them may leave besides the application's removals. -/
def jailBudget (s : StagingNode) (current : ValidatorSet) : ℕ :=
  current.len - minValidatorFloor - (s.stagedValidatorUpdates.filter fun u =>
    u.weight = 0 ∧ current.contains u.nodeId).length

/-- The validators that the application's last updates take out of the set. -/
def leaving (s : StagingNode) (current : ValidatorSet) : List ValidatorId :=
  current.members.filter fun v => lastUpdate s.stagedValidatorUpdates v = some 0

/-- There is room below the set for those who leave, and no jailed validator stays that could
leave. -/
structure Room (s : StagingNode) (current : ValidatorSet) : Prop where
  floor : (s.leaving current).length + minValidatorFloor ≤ current.len
  jail : (∀ v ∈ s.jailedSeated current,
      v ∈ (s.jailedSeated current).take (s.jailBudget current) ∨ v ∈ s.leaving current) ∨
    (sortedSet (s.leaving current ++ (s.jailedSeated current).take
      (s.jailBudget current))).length + minValidatorFloor = current.len

/-- The command passes the validation at the view and gives every seated validator its last staged
weight; a jailed one stays only in a set that cannot lose a member. -/
structure Landing (R : ReconfigPrimitives) (minVEffDelay : ℕ) (chainId : ChainId)
    (s : StagingNode) (view : ℕ) (cmd : ReconfigCommand) (newSet : ValidatorSet) : Prop where
  validated : ∃ next, cmd.validateAgainstWithDelayAndChain R
    (s.node.validatorHistory.setAt view) view minVEffDelay chainId = .ok next ∧
      ValidatorSet.withWeights next = .ok newSet
  floor : minValidatorFloor ≤ newSet.len
  weights : ∀ v ∈ (s.node.validatorHistory.setAt view).members, v ∉ s.committedEvidence →
    newSet.weightFor v =
      targetWeight s.stagedValidatorUpdates (s.node.validatorHistory.setAt view) v
  jailed : ∀ v ∈ (s.node.validatorHistory.setAt view).members, v ∈ s.committedEvidence →
    newSet.weightFor v = none ∨ newSet.len = minValidatorFloor ∧ newSet.weightFor v =
      targetWeight s.stagedValidatorUpdates (s.node.validatorHistory.setAt view) v
  taken : ∀ bytes, ReconfigCommand.decode R bytes = .ok cmd →
    reconfigChange R minVEffDelay chainId s.node.validatorHistory view bytes = some (cmd, newSet)

theorem mem_jailedSeated {s : StagingNode} {current : ValidatorSet} {v : ValidatorId} :
    v ∈ s.jailedSeated current ↔ v ∈ s.committedEvidence ∧ v ∈ current.members := by
  rw [jailedSeated, mem_sortedSet, List.mem_filter, current.contains_iff]

theorem mem_leaving {s : StagingNode} {current : ValidatorSet} {v : ValidatorId} :
    v ∈ s.leaving current ↔
      v ∈ current.members ∧ lastUpdate s.stagedValidatorUpdates v = some 0 := by
  rw [leaving, List.mem_filter, decide_eq_true_iff]

theorem jailRemoves_eq (s : StagingNode) (current : ValidatorSet) :
    s.jailRemoves current =
      ((s.jailedSeated current).take (s.jailBudget current)).map fun v => ⟨v, 0⟩ := rfl

/-- A jailed validator of the budget has its last weight from the jail, any other one from the
application. -/
theorem lastUpdate_minted (s : StagingNode) (current : ValidatorSet) (v : ValidatorId) :
    lastUpdate (s.stagedValidatorUpdates ++ s.jailRemoves current) v =
      if v ∈ (s.jailedSeated current).take (s.jailBudget current) then some 0
      else lastUpdate s.stagedValidatorUpdates v := by
  rw [lastUpdate_append_updates, jailRemoves_eq]
  split_ifs with hjail
  · cases hw : lastUpdate (((s.jailedSeated current).take (s.jailBudget current)).map
        fun v => (⟨v, 0⟩ : ValidatorUpdate)) v with
    | none => exact absurd rfl (lastUpdate_eq_none.mp hw ⟨v, 0⟩ (List.mem_map_of_mem hjail))
    | some w =>
      obtain ⟨u, hu, -, rfl⟩ := mem_of_lastUpdate hw
      obtain ⟨v', -, rfl⟩ := List.mem_map.mp hu
      rfl
  · rw [lastUpdate_eq_none.mpr, Option.none_or]
    rintro u hu rfl
    obtain ⟨v', hv', rfl⟩ := List.mem_map.mp hu
    exact hjail hv'

theorem length_leaving_le (s : StagingNode) (current : ValidatorSet) :
    (s.leaving current).length ≤ (s.stagedValidatorUpdates.filter fun u =>
      u.weight = 0 ∧ current.contains u.nodeId).length := by
  rw [← List.length_map ValidatorUpdate.nodeId]
  refine List.Subperm.length_le ((current.nodup_members.filter _).subperm fun v hv => ?_)
  obtain ⟨hmem, hw⟩ := mem_leaving.mp hv
  obtain ⟨u, hu, rfl, hzero⟩ := mem_of_lastUpdate hw
  refine List.mem_map_of_mem (List.mem_filter.mpr ⟨hu, decide_eq_true ⟨hzero, ?_⟩⟩)
  exact (current.contains_iff _).mpr hmem

theorem mint_eq_some {s : StagingNode} {minVEffDelay view : ℕ} {cmd : ReconfigCommand}
    (h : (s.mintStagedReconfig minVEffDelay view).2 = some cmd) :
    ¬ s.boundaryAhead view = true ∧ ∃ vEff < 2 ^ 64,
      vEff = view + max (max minVEffDelay delayFloor) appReconfigSettleViews ∧
      BringsTo (s.stagedValidatorUpdates ++ s.jailRemoves (s.node.validatorHistory.setAt view))
        (s.node.validatorHistory.setAt view) vEff cmd := by
  unfold mintStagedReconfig at h
  simp only at h
  split_ifs at h with hempty hahead
  · refine ⟨hahead, ?_⟩
    cases hdelay : checkedAddU64 view
        (max (max minVEffDelay delayFloor) appReconfigSettleViews) with
    | none =>
      rw [hdelay] at h
      cases h
    | some vEff =>
      rw [hdelay] at h
      simp only at h
      obtain ⟨rfl, hlt⟩ := checkedAddU64_eq_some.mp hdelay
      refine ⟨_, hlt, rfl, ?_⟩
      cases hcmd : stagedUpdatesToReconfig (s.stagedValidatorUpdates ++
          s.jailRemoves (s.node.validatorHistory.setAt view))
          (s.node.validatorHistory.setAt view)
          (view + max (max minVEffDelay delayFloor) appReconfigSettleViews) with
      | none =>
        rw [hcmd] at h
        cases h
      | some minted =>
        rw [hcmd] at h
        obtain rfl := Option.some.inj h
        exact bringsTo_of_stagedUpdates hcmd

section
variable {s : StagingNode} {current : ValidatorSet} {vEff : ℕ} {cmd : ReconfigCommand}
  (h : BringsTo (s.stagedValidatorUpdates ++ s.jailRemoves current) current vEff cmd)
include h

theorem mem_removes_minted {v : ValidatorId} : v ∈ cmd.removes ↔
    v ∈ s.leaving current ∨ v ∈ (s.jailedSeated current).take (s.jailBudget current) := by
  rw [h.mem_removes, lastUpdate_minted, mem_leaving]
  split_ifs with hjail
  · have hmem := (mem_jailedSeated.mp (List.mem_of_mem_take hjail)).2
    exact iff_of_true ⟨hmem, rfl⟩ (.inr hjail)
  · exact (or_iff_left hjail).symm

theorem length_removes_minted : cmd.removes.length =
    (sortedSet (s.leaving current ++
      (s.jailedSeated current).take (s.jailBudget current))).length := by
  have hnodup : (sortedSet (s.leaving current ++
      (s.jailedSeated current).take (s.jailBudget current))).Nodup :=
    (List.perm_insertionSort _ _).nodup_iff.mpr (List.nodup_dedup _)
  refine ((List.perm_ext_iff_of_nodup h.nodup_removes hnodup).mpr fun v => ?_).length_eq
  rw [mem_removes_minted h, mem_sortedSet, List.mem_append]

/-- Below the floor the jail takes nobody out, so that the application's removals decide. -/
theorem removes_fit_iff : cmd.removes.length + minValidatorFloor ≤ current.len ↔
    (s.leaving current).length + minValidatorFloor ≤ current.len := by
  have hleaving : (s.leaving current).length ≤ cmd.removes.length :=
    ((current.nodup_members.filter _).subperm fun v hv =>
      (mem_removes_minted h).mpr (.inl hv)).length_le
  have happ := s.length_leaving_le current
  have hsum : cmd.removes.length ≤ (s.leaving current).length + s.jailBudget current := by
    rw [length_removes_minted h]
    refine (List.length_insertionSort _ _).le.trans ?_
    refine (List.dedup_sublist _).length_le.trans ?_
    rw [List.length_append]
    exact Nat.add_le_add_left (List.length_take_le _ _) _
  unfold jailBudget at hsum
  omega

omit h in
theorem weight_lt_minted (hweights : ∀ u ∈ s.stagedValidatorUpdates, u.weight < 2 ^ 64) :
    ∀ u ∈ s.stagedValidatorUpdates ++ s.jailRemoves current, u.weight < 2 ^ 64 := by
  intro u hu
  rcases List.mem_append.mp hu with hu | hu
  · exact hweights u hu
  · obtain ⟨v, -, rfl⟩ := List.mem_map.mp hu
    exact Nat.two_pow_pos 64

section
variable (hweights : ∀ u ∈ s.stagedValidatorUpdates, u.weight < 2 ^ 64) {newSet : ValidatorSet}
  (hs : ValidatorSet.withWeights (cmd.nextMembers current) = .ok newSet) {v : ValidatorId}
  (hmem : v ∈ current.members)
include hweights hs hmem

theorem weightFor_of_jailed (hjail : v ∈ (s.jailedSeated current).take (s.jailBudget current)) :
    newSet.weightFor v = none := by
  rw [h.weightFor_newSet (weight_lt_minted hweights) hs hmem, targetWeight_eq_none hmem,
    lastUpdate_minted, if_pos hjail]

/-- Whom the jail does not take out gets the weight that the application wants. -/
theorem weightFor_of_not_jailed
    (hout : v ∉ (s.jailedSeated current).take (s.jailBudget current)) :
    newSet.weightFor v = targetWeight s.stagedValidatorUpdates current v := by
  rw [h.weightFor_newSet (weight_lt_minted hweights) hs hmem]
  unfold targetWeight
  rw [lastUpdate_minted, if_neg hout]

end

end

theorem reconfigChange_of_validate {R : ReconfigPrimitives} {minVEffDelay blockView : ℕ}
    {chainId : ChainId} {history : ValidatorSetHistory} {bytes : Bytes} {cmd : ReconfigCommand}
    {next : List (NodeId × UInt64)} {newSet : ValidatorSet}
    (hdecode : ReconfigCommand.decode R bytes = .ok cmd)
    (hvalid : cmd.validateAgainstWithDelayAndChain R (history.setAt blockView) blockView
      minVEffDelay chainId = .ok next)
    (hahead : ¬ (history.iter.any fun b => b.1 ≠ 0 && blockView < b.1) = true)
    (hs : ValidatorSet.withWeights next = .ok newSet) :
    reconfigChange R minVEffDelay chainId history blockView bytes = some (cmd, newSet) := by
  have htag : ReconfigCommand.isReconfigPayload bytes = true := by
    obtain ⟨_, htag, -⟩ := bind_eq_ok.mp hdecode
    exact require_eq_ok.mp htag
  unfold reconfigChange
  rw [toOption_eq_some.mpr hdecode, if_neg (by simp [htag])]
  simp only [Option.bind_eq_bind, Option.bind_some, toOption_eq_some.mpr hvalid,
    toOption_eq_some.mpr hs, if_neg hahead]
  rfl

/-- What the node mints can land exactly when there is room for it. -/
theorem minted_lands_iff (R : ReconfigPrimitives) {minVEffDelay : ℕ} (chainId : ChainId)
    {s : StagingNode} {view : ℕ} {cmd : ReconfigCommand}
    (hweights : ∀ u ∈ s.stagedValidatorUpdates, u.weight < 2 ^ 64)
    (h : (s.mintStagedReconfig minVEffDelay view).2 = some cmd) :
    (∃ newSet, s.Landing R minVEffDelay chainId view cmd newSet) ↔
      s.Room (s.node.validatorHistory.setAt view) := by
  obtain ⟨hahead, vEff, hlt, hvEff, hcmd⟩ := mint_eq_some h
  have hall : ∀ u ∈ s.stagedValidatorUpdates ++
      s.jailRemoves (s.node.validatorHistory.setAt view), u.weight < 2 ^ 64 :=
    weight_lt_minted hweights
  obtain ⟨newSet, hs⟩ := hcmd.exists_newSet hall
  have hlen := hcmd.len_newSet hs
  have hnext := hcmd.length_nextMembers
  have hfit := removes_fit_iff hcmd
  constructor
  · rintro ⟨newSet', hlanding⟩
    obtain ⟨next, hvalid, hset⟩ := hlanding.validated
    obtain ⟨-, rfl, -⟩ := ReconfigCommand.validate_eq_ok.mp hvalid
    obtain rfl : newSet = newSet' := Except.ok.inj (hs.symm.trans hset)
    have hfloor := hlanding.floor
    refine ⟨hfit.mp (by omega), ?_⟩
    by_cases hfull : newSet.len = minValidatorFloor
    · right
      rw [← length_removes_minted hcmd]
      omega
    · left
      intro v hv
      obtain ⟨hevidence, hmem⟩ := mem_jailedSeated.mp hv
      have hgone := (hlanding.jailed v hmem hevidence).resolve_right fun hstay => hfull hstay.1
      rw [hcmd.weightFor_newSet hall hs hmem, targetWeight_eq_none hmem] at hgone
      exact ((mem_removes_minted hcmd).mp (hcmd.mem_removes.mpr ⟨hmem, hgone⟩)).symm
  · intro hroom
    have hremoves := hfit.mpr hroom.floor
    have hvalid : cmd.validateAgainstWithDelayAndChain R
        (s.node.validatorHistory.setAt view) view minVEffDelay chainId =
          .ok (cmd.nextMembers (s.node.validatorHistory.setAt view)) := by
      refine ReconfigCommand.validate_eq_ok.mpr ⟨hcmd.admissible hall hlt ?_, rfl, by omega⟩
      rw [hvEff]
      exact Nat.add_le_add_left (Nat.le_max_left _ _) _
    refine ⟨newSet, ⟨_, hvalid, hs⟩, by omega, ?_, ?_, ?_⟩
    · intro v hmem hevidence
      refine weightFor_of_not_jailed hcmd hweights hs hmem fun hjail => hevidence ?_
      exact (mem_jailedSeated.mp (List.mem_of_mem_take hjail)).1
    · intro v hmem hevidence
      by_cases hjail : v ∈ (s.jailedSeated (s.node.validatorHistory.setAt view)).take
          (s.jailBudget (s.node.validatorHistory.setAt view))
      · exact .inl (weightFor_of_jailed hcmd hweights hs hmem hjail)
      · have hkept := weightFor_of_not_jailed hcmd hweights hs hmem hjail
        rcases hroom.jail with hout | hfull
        · have hleaving := (hout v (mem_jailedSeated.mpr ⟨hevidence, hmem⟩)).resolve_left hjail
          left
          rw [hkept, targetWeight_eq_none hmem]
          exact (mem_leaving.mp hleaving).2
        · right
          rw [← length_removes_minted hcmd] at hfull
          exact ⟨by omega, hkept⟩
    · exact fun bytes hdecode => reconfigChange_of_validate hdecode hvalid hahead hs

end StagingNode

namespace Sample
open StagingNode

def sixValidators : ValidatorSet where
  members := [1, 2, 3, 4, 5, 6]
  weights := [1, 1, 1, 1, 1, 1]
  sorted := by decide
  weights_length := by decide
  weights_ne_zero := by simp
  length_lt := by decide

def sixSeats : NodeConfig :=
  { config with
    validatorSet := sixValidators
    genesisBls := [(1, 11), (2, 12), (3, 13), (4, 14), (5, 15), (6, 16)] }

/-- The node has these updates staged. -/
def stagedOn (n : ConsensusNode) (updates : List ValidatorUpdate) : StagingNode :=
  ⟨n, [], updates, [], none⟩

/-- Of six validators, 1 gets a new weight, 2 leaves, and evidence has convicted 3. -/
def convicting (n : ConsensusNode) : StagingNode :=
  { stagedOn n [⟨1, 5⟩, ⟨2, 0⟩] with committedEvidence := [3] }

theorem reweighing_lands : ∃ n ∈ recover timed sixSeats .empty,
    ∃ cmd ∈ ((convicting n).mintStagedReconfig sixSeats.minVEffDelay 10).2,
      ∃ newSet, (convicting n).Landing allChanges.toReconfigPrimitives sixSeats.minVEffDelay
        (sixSeats.chainId timed) 10 cmd newSet := by
  obtain ⟨n, hn, cmd, hcmd, hfloor, hjail⟩ : ∃ n ∈ recover timed sixSeats .empty,
      ∃ cmd ∈ ((convicting n).mintStagedReconfig sixSeats.minVEffDelay 10).2,
        ((convicting n).leaving (n.validatorHistory.setAt 10)).length + minValidatorFloor ≤
          (n.validatorHistory.setAt 10).len ∧
        ∀ v ∈ (convicting n).jailedSeated (n.validatorHistory.setAt 10),
          v ∈ ((convicting n).jailedSeated (n.validatorHistory.setAt 10)).take
            ((convicting n).jailBudget (n.validatorHistory.setAt 10)) := by
    decide +kernel
  have hroom : (convicting n).Room (n.validatorHistory.setAt 10) :=
    ⟨hfloor, .inl fun v hv => .inl (hjail v hv)⟩
  have hweights : ∀ u ∈ (convicting n).stagedValidatorUpdates, u.weight < 2 ^ 64 := by
    change ∀ u ∈ [(⟨1, 5⟩ : ValidatorUpdate), ⟨2, 0⟩], u.weight < 2 ^ 64
    decide
  exact ⟨n, hn, cmd, hcmd, (minted_lands_iff _ _ hweights hcmd).mpr hroom⟩

/-- One of four validators is to leave; the new weight of another one has to wait with it. -/
theorem removal_never_lands : ∃ n ∈ recover timed config .empty,
    ∃ cmd ∈ ((stagedOn n [⟨1, 0⟩, ⟨2, 7⟩]).mintStagedReconfig config.minVEffDelay 10).2,
      ¬ ∃ newSet, (stagedOn n [⟨1, 0⟩, ⟨2, 7⟩]).Landing allChanges.toReconfigPrimitives
        config.minVEffDelay (config.chainId timed) 10 cmd newSet := by
  obtain ⟨n, hn, cmd, hcmd, hrefused⟩ : ∃ n ∈ recover timed config .empty,
      ∃ cmd ∈ ((stagedOn n [⟨1, 0⟩, ⟨2, 7⟩]).mintStagedReconfig config.minVEffDelay 10).2,
        (cmd.validateAgainstWithDelayAndChain allChanges.toReconfigPrimitives
          (n.validatorHistory.setAt 10) 10 config.minVEffDelay
          (config.chainId timed)).toOption = none := by
    decide +kernel
  refine ⟨n, hn, cmd, hcmd, ?_⟩
  rintro ⟨newSet, hlanding⟩
  obtain ⟨next, hvalid, -⟩ := hlanding.validated
  cases (toOption_eq_some.mpr hvalid).symm.trans hrefused

end Sample

end Boule
