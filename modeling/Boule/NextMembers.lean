import Boule.Lib.Run
import Boule.Reconfig

/-! The weights that a validated reconfiguration leads to. -/
namespace Boule

/-! ### Entries of a set -/

namespace ValidatorSet

theorem map_fst_iterWeighted (vs : ValidatorSet) : vs.iterWeighted.map Prod.fst = vs.members :=
  List.map_fst_zip vs.weights_length.ge

/-- The weight of a validator is the one of its entry. -/
theorem weightFor_eq_some_iff (vs : ValidatorSet) (id : ValidatorId) (w : ℕ) :
    vs.weightFor id = some w ↔ ∃ e ∈ vs.iterWeighted, e.1 = id ∧ e.2.toNat = w := by
  unfold weightFor
  rw [Option.map_eq_some_iff]
  constructor
  · rintro ⟨i, hi, rfl⟩
    have hlt : i < vs.weights.length := vs.weights_length ▸ indexOf_lt hi
    rw [indexOf_eq_some_iff] at hi
    obtain ⟨hlt', hget⟩ := List.getElem?_eq_some_iff.mp hi
    have hlen : i < vs.iterWeighted.length := by
      rw [iterWeighted, List.length_zip]
      omega
    refine ⟨vs.iterWeighted[i], List.getElem_mem hlen, ?_, ?_⟩
    · simp only [iterWeighted, List.getElem_zip]
      exact hget
    · simp only [iterWeighted, List.getElem_zip]
      rw [weightAt_eq_getElem vs hlt]
  · rintro ⟨e, he, rfl, rfl⟩
    obtain ⟨i, hi, hget⟩ := List.mem_iff_getElem.mp he
    have hlen : i < vs.members.length ∧ i < vs.weights.length := by
      rw [iterWeighted, List.length_zip] at hi
      omega
    rw [← hget]
    simp only [iterWeighted, List.getElem_zip]
    refine ⟨i, (vs.indexOf_eq_some_iff _ i).mpr (List.getElem?_eq_getElem hlen.1), ?_⟩
    rw [weightAt_eq_getElem vs hlen.2]

theorem contains_iff (vs : ValidatorSet) (id : ValidatorId) :
    vs.contains id = true ↔ id ∈ vs.members := by
  unfold contains
  rw [Option.isSome_iff_exists]
  constructor
  · rintro ⟨i, hi⟩
    exact List.mem_of_getElem? ((vs.indexOf_eq_some_iff id i).mp hi)
  · intro h
    obtain ⟨i, hi⟩ := List.mem_iff_getElem?.mp h
    exact ⟨i, (vs.indexOf_eq_some_iff id i).mpr hi⟩

theorem mem_sortEntries {entries : List (ValidatorId × UInt64)}
    (h : (entries.map Prod.fst).Nodup) (e : ValidatorId × UInt64) :
    e ∈ sortEntries entries ↔ e ∈ entries := by
  have hsorted : ((entries.insertionSort fun a b => a.1 ≤ b.1).map Prod.fst).Nodup :=
    ((List.perm_insertionSort _ _).map Prod.fst).nodup_iff.mpr h
  have hchain : (entries.insertionSort fun a b => a.1 ≤ b.1).IsChain fun a b => a.1 ≠ b.1 :=
    (List.pairwise_map.mp hsorted).isChain
  rw [sortEntries, List.destutter_of_isChain _ _ hchain]
  exact List.mem_insertionSort _

theorem iterWeighted_of_withWeights {entries : List (ValidatorId × UInt64)} {vs : ValidatorSet}
    (h : withWeights entries = .ok vs) : vs.iterWeighted = sortEntries entries := by
  unfold withWeights at h
  split_ifs at h
  rw [← Except.ok.inj h, iterWeighted]
  exact List.zip_map' .. |>.trans (List.map_id _)

end ValidatorSet

/-! ### Changes of weights -/

theorem map_fst_setWeight (change : WeightChange) (es : List (NodeId × UInt64)) :
    (setWeight change es).map Prod.fst = es.map Prod.fst := by
  induction es with
  | nil => rfl
  | cons e es ih =>
    rw [setWeight]
    split_ifs
    · rfl
    · rw [List.map_cons, ih, List.map_cons]

theorem mem_setWeight_of_ne {change : WeightChange} {es : List (NodeId × UInt64)}
    {e : NodeId × UInt64} (h : e.1 ≠ change.nodeId) : e ∈ setWeight change es ↔ e ∈ es := by
  induction es with
  | nil => rfl
  | cons e' es ih =>
    rw [setWeight]
    split_ifs with he'
    · have hne : ∀ w, e ≠ (e'.1, w) := fun w he => h (he ▸ he')
      rw [List.mem_cons, List.mem_cons]
      exact or_congr_left (iff_of_false (hne _) (hne e'.2))
    · rw [List.mem_cons, List.mem_cons, ih]

theorem mem_setWeight_self {change : WeightChange} {es : List (NodeId × UInt64)}
    (h : change.nodeId ∈ es.map Prod.fst) :
    (change.nodeId, change.weight) ∈ setWeight change es := by
  induction es with
  | nil => cases h
  | cons e es ih =>
    rw [setWeight]
    split_ifs with he
    · rw [he]
      exact List.mem_cons_self ..
    · rw [List.map_cons, List.mem_cons] at h
      exact List.mem_cons_of_mem _ (ih (h.resolve_left fun hid => he hid.symm))

theorem map_fst_foldl_setWeight (changes : List WeightChange) (es : List (NodeId × UInt64)) :
    (changes.foldl (fun next change => setWeight change next) es).map Prod.fst =
      es.map Prod.fst :=
  foldl_keeps (f := List.map Prod.fst) (fun es change => map_fst_setWeight change es) es changes

theorem mem_foldl_setWeight_of_notMem {changes : List WeightChange}
    {es : List (NodeId × UInt64)} {e : NodeId × UInt64}
    (h : e.1 ∉ changes.map WeightChange.nodeId) :
    e ∈ changes.foldl (fun next change => setWeight change next) es ↔ e ∈ es := by
  induction changes generalizing es with
  | nil => rfl
  | cons change changes ih =>
    rw [List.map_cons, List.mem_cons, not_or] at h
    rw [List.foldl_cons, ih h.2, mem_setWeight_of_ne h.1]

theorem mem_foldl_setWeight_of_mem {changes : List WeightChange} {es : List (NodeId × UInt64)}
    (hnodup : (changes.map WeightChange.nodeId).Nodup) {change : WeightChange}
    (h : change ∈ changes) (hid : change.nodeId ∈ es.map Prod.fst) :
    (change.nodeId, change.weight) ∈
      changes.foldl (fun next change => setWeight change next) es := by
  induction changes generalizing es with
  | nil => cases h
  | cons first changes ih =>
    rw [List.map_cons, List.nodup_cons] at hnodup
    rw [List.foldl_cons]
    rcases List.mem_cons.mp h with rfl | h
    · exact (mem_foldl_setWeight_of_notMem hnodup.1).mpr (mem_setWeight_self hid)
    · exact ih hnodup.2 h (by rwa [map_fst_setWeight])

theorem firstDuplicate_eq_none {seen ns : List NodeId} :
    firstDuplicate seen ns = none ↔ ns.Nodup ∧ ∀ n ∈ ns, n ∉ seen := by
  induction ns generalizing seen with
  | nil => exact iff_of_true rfl ⟨List.nodup_nil, nofun⟩
  | cons n ns ih =>
    rw [firstDuplicate, List.nodup_cons, List.forall_mem_cons]
    split_ifs with hseen
    · exact iff_of_false nofun fun h => h.2.1 hseen
    · rw [ih]
      constructor
      · rintro ⟨hnodup, hfresh⟩
        have hn : n ∉ ns := fun hn => hfresh n hn (List.mem_cons_self ..)
        exact ⟨⟨hn, hnodup⟩, hseen, fun m hm hs => hfresh m hm (List.mem_cons_of_mem _ hs)⟩
      · rintro ⟨⟨hn, hnodup⟩, -, hfresh⟩
        refine ⟨hnodup, fun m hm hs => ?_⟩
        rcases List.mem_cons.mp hs with rfl | hs
        · exact hn hm
        · exact hfresh m hm hs

theorem leastCommon_eq_none {xs ys : List NodeId} :
    leastCommon xs ys = none ↔ ∀ n ∈ xs, n ∉ ys := by
  unfold leastCommon
  rw [List.find?_eq_none]
  constructor
  · intro h n hn hy
    exact h n (mem_sortedSet.mpr hn) (decide_eq_true hy)
  · intro h n hn hy
    exact h n (mem_sortedSet.mp hn) (of_decide_eq_true hy)

theorem find?_sortedSet_eq_none {ids : List NodeId} {p : NodeId → Bool} :
    (sortedSet ids).find? p = none ↔ ∀ n ∈ ids, p n = false := by
  rw [List.find?_eq_none]
  constructor
  · intro h n hn
    exact Bool.eq_false_iff.mpr (h n (mem_sortedSet.mpr hn))
  · intro h n hn
    exact Bool.eq_false_iff.mp (h n (mem_sortedSet.mp hn))

/-! ### Validated commands -/

namespace ReconfigCommand
variable {R : ReconfigPrimitives} {cmd : ReconfigCommand} {current newSet : ValidatorSet}

/-- What the checks of shape and membership leave. -/
structure WellFormed (cmd : ReconfigCommand) (current : ValidatorSet) : Prop where
  adds_nodup : cmd.addIds.Nodup
  changes_nodup : cmd.changeIds.Nodup
  adds_removes : ∀ n ∈ cmd.addIds, n ∉ cmd.removes
  removes_changes : ∀ n ∈ cmd.removes, n ∉ cmd.changeIds
  adds_new : ∀ n ∈ cmd.addIds, n ∉ current.members
  changes_member : ∀ n ∈ cmd.changeIds, n ∈ current.members

/-- What the validation asks of a command, but for the size of the new set. -/
structure Admissible (R : ReconfigPrimitives) (cmd : ReconfigCommand) (current : ValidatorSet)
    (currentView minVEffDelay : ℕ) (chainId : ChainId) : Prop extends cmd.WellFormed current where
  no_overflow : currentView + max minVEffDelay delayFloor < 2 ^ 64
  delay : currentView + max minVEffDelay delayFloor ≤ cmd.vEff
  adds_weight : ∀ entry ∈ cmd.adds, entry.weight ≠ 0
  changes_weight : ∀ change ∈ cmd.changes, change.weight ≠ 0
  removes_nodup : cmd.removes.Nodup
  adds_changes : ∀ n ∈ cmd.addIds, n ∉ cmd.changeIds
  removes_member : ∀ n ∈ cmd.removes, n ∈ current.members
  pops : ∀ entry ∈ cmd.adds, ∃ pop, entry.blsPop = some pop ∧ R.popVerifies pop chainId = true
  consents : ∀ entry ∈ cmd.adds, ∀ consent,
    ReconfigAddConsent.forEntry entry cmd.vEff = some consent →
      ∃ sig, entry.consentSig = some sig ∧ R.consentVerifies consent sig chainId = true

theorem checkDelay_eq_ok {currentView minVEffDelay : ℕ} {u : Unit} :
    cmd.checkDelay currentView minVEffDelay = .ok u ↔
      currentView + max minVEffDelay delayFloor < 2 ^ 64 ∧
        currentView + max minVEffDelay delayFloor ≤ cmd.vEff := by
  simp only [checkDelay, bind_eq_ok, okOr_eq_ok, require_eq_ok, decide_eq_true_iff,
    checkedAddU64_eq_some]
  constructor
  · rintro ⟨_, ⟨rfl, hlt⟩, hle⟩
    exact ⟨hlt, hle⟩
  · rintro ⟨hlt, hle⟩
    exact ⟨_, ⟨rfl, hlt⟩, hle⟩

theorem checkShape_eq_ok {u : Unit} : cmd.checkShape = .ok u ↔
    (∀ entry ∈ cmd.adds, entry.weight ≠ 0) ∧ (∀ change ∈ cmd.changes, change.weight ≠ 0) ∧
      cmd.addIds.Nodup ∧ cmd.removes.Nodup ∧ cmd.changeIds.Nodup ∧
      (∀ n ∈ cmd.addIds, n ∉ cmd.removes) ∧ (∀ n ∈ cmd.addIds, n ∉ cmd.changeIds) ∧
      ∀ n ∈ cmd.removes, n ∉ cmd.changeIds := by
  simp only [checkShape, bind_eq_ok, refuse_eq_ok, exists_const, List.find?_eq_none,
    decide_eq_true_iff, firstDuplicate_eq_none, leastCommon_eq_none, List.not_mem_nil,
    not_false_eq_true, implies_true, and_true, ne_eq]

theorem checkMembership_eq_ok {u : Unit} : cmd.checkMembership current = .ok u ↔
    (∀ n ∈ cmd.removes, n ∈ current.members) ∧ (∀ n ∈ cmd.addIds, n ∉ current.members) ∧
      ∀ n ∈ cmd.changeIds, n ∈ current.members := by
  simp only [checkMembership, bind_eq_ok, refuse_eq_ok, exists_const, find?_sortedSet_eq_none,
    Bool.eq_false_iff, ne_eq, Bool.not_not_eq, ValidatorSet.contains_iff]

theorem checkPop_eq_ok {chainId : ChainId} {entry : ValidatorEntry} :
    checkPop R chainId entry = .ok () ↔
      ∃ pop, entry.blsPop = some pop ∧ R.popVerifies pop chainId = true := by
  simp only [checkPop, bind_eq_ok, okOr_eq_ok, require_eq_ok]

theorem checkConsent_eq_ok {vEff : ℕ} {chainId : ChainId} {entry : ValidatorEntry} :
    checkConsent R vEff chainId entry = .ok () ↔
      ∀ consent, ReconfigAddConsent.forEntry entry vEff = some consent →
        ∃ sig, entry.consentSig = some sig ∧ R.consentVerifies consent sig chainId = true := by
  unfold checkConsent
  cases ReconfigAddConsent.forEntry entry vEff with
  | none => exact iff_of_true rfl nofun
  | some consent =>
    simp only [bind_eq_ok, okOr_eq_ok, require_eq_ok, Option.some.injEq, forall_eq']

/-- The validation accepts the admissible commands that leave enough validators. -/
theorem validate_eq_ok {currentView minVEffDelay : ℕ} {chainId : ChainId}
    {next : List (NodeId × UInt64)} :
    cmd.validateAgainstWithDelayAndChain R current currentView minVEffDelay chainId = .ok next ↔
      cmd.Admissible R current currentView minVEffDelay chainId ∧
        next = cmd.nextMembers current ∧ minValidatorFloor ≤ next.length := by
  have hok : ∀ l : List (NodeId × UInt64),
      (pure l : Except ReconfigError (List (NodeId × UInt64))) = .ok next ↔ l = next :=
    fun l => ⟨Except.ok.inj, congrArg Except.ok⟩
  simp only [validateAgainstWithDelayAndChain, bind_eq_ok, forM_eq_ok, require_eq_ok,
    exists_const, decide_eq_true_iff, checkDelay_eq_ok, checkShape_eq_ok, checkMembership_eq_ok,
    checkPop_eq_ok, checkConsent_eq_ok, hok]
  constructor
  · rintro ⟨⟨hno, hdelay⟩, ⟨hwa, hwc, hna, hnr, hnc, har, hac, hrc⟩, ⟨hrm, han, hcm⟩, hpop,
      hconsent, hfloor, rfl⟩
    exact ⟨⟨⟨hna, hnc, har, hrc, han, hcm⟩, hno, hdelay, hwa, hwc, hnr, hac, hrm, hpop, hconsent⟩,
      rfl, hfloor⟩
  · rintro ⟨h, rfl, hfloor⟩
    exact ⟨⟨h.no_overflow, h.delay⟩, ⟨h.adds_weight, h.changes_weight, h.adds_nodup,
      h.removes_nodup, h.changes_nodup, h.adds_removes, h.adds_changes, h.removes_changes⟩,
      ⟨h.removes_member, h.adds_new, h.changes_member⟩, h.pops, h.consents, hfloor, rfl⟩

/-- The entries that stay, with their new weights. -/
def keptEntries (cmd : ReconfigCommand) (current : ValidatorSet) : List (NodeId × UInt64) :=
  cmd.changes.foldl (fun next change => setWeight change next)
    (current.iterWeighted.filter fun e => e.1 ∉ cmd.removes)

theorem map_fst_keptEntries (cmd : ReconfigCommand) (current : ValidatorSet) :
    (cmd.keptEntries current).map Prod.fst =
      (current.iterWeighted.filter fun e => e.1 ∉ cmd.removes).map Prod.fst :=
  map_fst_foldl_setWeight ..

theorem mem_keptIds {n : NodeId} : n ∈ (cmd.keptEntries current).map Prod.fst ↔
    n ∈ current.members ∧ n ∉ cmd.removes := by
  rw [map_fst_keptEntries, ← current.map_fst_iterWeighted]
  simp only [List.mem_map, List.mem_filter, decide_eq_true_eq]
  constructor
  · rintro ⟨e, ⟨he, hkept⟩, rfl⟩
    exact ⟨⟨e, he, rfl⟩, hkept⟩
  · rintro ⟨⟨e, he, rfl⟩, hkept⟩
    exact ⟨e, ⟨he, hkept⟩, rfl⟩

/-- The entries that the command adds. -/
def addedEntries (cmd : ReconfigCommand) : List (NodeId × UInt64) :=
  cmd.adds.map fun entry => (entry.nodeId, entry.weight)

theorem nextMembers_eq (cmd : ReconfigCommand) (current : ValidatorSet) :
    cmd.nextMembers current =
      ValidatorSet.sortEntries (cmd.keptEntries current ++ cmd.addedEntries) := rfl

theorem map_fst_addedEntries (cmd : ReconfigCommand) :
    cmd.addedEntries.map Prod.fst = cmd.addIds := by
  unfold addedEntries addIds
  rw [List.map_map]
  rfl

theorem nodup_keptIds (cmd : ReconfigCommand) (current : ValidatorSet) :
    ((cmd.keptEntries current).map Prod.fst).Nodup := by
  rw [map_fst_keptEntries]
  have hnodup := current.nodup_members
  rw [← current.map_fst_iterWeighted] at hnodup
  exact hnodup.sublist (List.filter_sublist.map _)

/-- A kept validator has its changed weight, or its old one. -/
theorem WellFormed.mem_keptEntries (h : cmd.WellFormed current) (e : NodeId × UInt64) :
    e ∈ cmd.keptEntries current ↔
      (∃ change ∈ cmd.changes, e = (change.nodeId, change.weight)) ∨
        e ∈ current.iterWeighted ∧ e.1 ∉ cmd.removes ∧ e.1 ∉ cmd.changeIds := by
  have hchanged : ∀ change ∈ cmd.changes,
      (change.nodeId, change.weight) ∈ cmd.keptEntries current := by
    intro change hchange
    have hid : change.nodeId ∈ cmd.changeIds := List.mem_map_of_mem hchange
    have hkept : change.nodeId ∈ (cmd.keptEntries current).map Prod.fst :=
      mem_keptIds.mpr ⟨h.changes_member _ hid, fun hr => h.removes_changes _ hr hid⟩
    rw [map_fst_keptEntries] at hkept
    exact mem_foldl_setWeight_of_mem h.changes_nodup hchange hkept
  by_cases hid : e.1 ∈ cmd.changeIds
  · constructor
    · intro he
      obtain ⟨change, hchange, hsame⟩ := List.mem_map.mp hid
      have heq := List.inj_on_of_nodup_map (cmd.nodup_keptIds current) he
        (hchanged change hchange) hsame.symm
      exact .inl ⟨change, hchange, heq⟩
    · rintro (⟨change, hchange, rfl⟩ | ⟨-, -, hno⟩)
      · exact hchanged change hchange
      · exact absurd hid hno
  · rw [keptEntries, mem_foldl_setWeight_of_notMem hid, List.mem_filter, decide_eq_true_iff]
    constructor
    · exact fun he => .inr ⟨he.1, he.2, hid⟩
    · rintro (⟨change, hchange, rfl⟩ | ⟨he, hr, -⟩)
      · exact absurd (List.mem_map_of_mem hchange) hid
      · exact ⟨he, hr⟩

theorem WellFormed.nodup_ids (h : cmd.WellFormed current) :
    ((cmd.keptEntries current ++ cmd.addedEntries).map Prod.fst).Nodup := by
  rw [List.map_append, map_fst_addedEntries, List.nodup_append]
  refine ⟨cmd.nodup_keptIds current, h.adds_nodup, fun n hn n' hn' heq => ?_⟩
  exact h.adds_new n' hn' (heq ▸ (mem_keptIds.mp hn).1)

theorem WellFormed.mem_nextMembers (h : cmd.WellFormed current) (e : NodeId × UInt64) :
    e ∈ cmd.nextMembers current ↔ e ∈ cmd.keptEntries current ∨ e ∈ cmd.addedEntries := by
  rw [nextMembers_eq, ValidatorSet.mem_sortEntries h.nodup_ids, List.mem_append]

theorem WellFormed.mem_newSet (h : cmd.WellFormed current)
    (hs : ValidatorSet.withWeights (cmd.nextMembers current) = .ok newSet)
    (e : NodeId × UInt64) : e ∈ newSet.iterWeighted ↔
      e ∈ cmd.keptEntries current ∨ e ∈ cmd.addedEntries := by
  have hsorted : ValidatorSet.sortEntries (cmd.nextMembers current) = cmd.nextMembers current :=
    ValidatorSet.sortEntries_of_pairwise (ValidatorSet.pairwise_sortEntries _)
  rw [ValidatorSet.iterWeighted_of_withWeights hs, hsorted, h.mem_nextMembers]

theorem WellFormed.removed (h : cmd.WellFormed current)
    (hs : ValidatorSet.withWeights (cmd.nextMembers current) = .ok newSet) {n : NodeId}
    (hn : n ∈ cmd.removes) : newSet.contains n = false := by
  rw [← Bool.not_eq_true, ValidatorSet.contains_iff, ← newSet.map_fst_iterWeighted, List.mem_map]
  rintro ⟨e, he, rfl⟩
  rcases (h.mem_newSet hs e).mp he with hkept | hadded
  · exact (mem_keptIds.mp (List.mem_map_of_mem hkept)).2 hn
  · obtain ⟨entry, hentry, rfl⟩ := List.mem_map.mp hadded
    exact h.adds_removes _ (List.mem_map_of_mem hentry) hn

theorem WellFormed.changed (h : cmd.WellFormed current)
    (hs : ValidatorSet.withWeights (cmd.nextMembers current) = .ok newSet) {change : WeightChange}
    (hchange : change ∈ cmd.changes) :
    newSet.weightFor change.nodeId = some change.weight.toNat := by
  refine (newSet.weightFor_eq_some_iff _ _).mpr ⟨(change.nodeId, change.weight), ?_, rfl, rfl⟩
  exact (h.mem_newSet hs _).mpr (.inl ((h.mem_keptEntries _).mpr (.inl ⟨change, hchange, rfl⟩)))

theorem WellFormed.untouched (h : cmd.WellFormed current)
    (hs : ValidatorSet.withWeights (cmd.nextMembers current) = .ok newSet) {n : NodeId} {w : ℕ}
    (hr : n ∉ cmd.removes) (hc : n ∉ cmd.changeIds) (hw : current.weightFor n = some w) :
    newSet.weightFor n = some w := by
  obtain ⟨e, he, rfl, hew⟩ := (current.weightFor_eq_some_iff n w).mp hw
  refine (newSet.weightFor_eq_some_iff _ _).mpr ⟨e, ?_, rfl, hew⟩
  exact (h.mem_newSet hs e).mpr (.inl ((h.mem_keptEntries e).mpr (.inr ⟨he, hr, hc⟩)))

/-! ### The set that is meant -/

/-- Added, changed and untouched validators with their weights, in the order of their ids. -/
structure IsNext (cmd : ReconfigCommand) (current : ValidatorSet)
    (next : List (NodeId × UInt64)) : Prop where
  sorted : next.Pairwise fun a b => a.1 < b.1
  mem : ∀ e, e ∈ next ↔
    (∃ entry ∈ cmd.adds, e = (entry.nodeId, entry.weight)) ∨
      (∃ change ∈ cmd.changes, e = (change.nodeId, change.weight)) ∨
      e ∈ current.iterWeighted ∧ e.1 ∉ cmd.removes ∧ e.1 ∉ cmd.changeIds

theorem IsNext.unique {next next' : List (NodeId × UInt64)} (h : cmd.IsNext current next)
    (h' : cmd.IsNext current next') : next = next' := by
  refine eq_of_keys_lt h.sorted h'.sorted fun e => ?_
  rw [h.mem, h'.mem]

theorem WellFormed.isNext (h : cmd.WellFormed current) :
    cmd.IsNext current (cmd.nextMembers current) where
  sorted := ValidatorSet.pairwise_sortEntries _
  mem := by
    intro e
    rw [h.mem_nextMembers, h.mem_keptEntries, addedEntries, List.mem_map, or_comm]
    simp only [eq_comm]

theorem WellFormed.length_nextMembers (h : cmd.WellFormed current) :
    (cmd.nextMembers current).length =
      (current.members.filter (· ∉ cmd.removes)).length + cmd.adds.length := by
  have hperm : (cmd.nextMembers current).Perm (cmd.keptEntries current ++ cmd.addedEntries) := by
    refine (List.perm_ext_iff_of_nodup (nodup_of_keys_lt h.isNext.sorted)
      (List.Nodup.of_map _ h.nodup_ids)).mpr fun e => ?_
    rw [h.mem_nextMembers, List.mem_append]
  have hkept : (cmd.keptEntries current).length =
      (current.members.filter (· ∉ cmd.removes)).length := by
    have hids := congrArg List.length (cmd.map_fst_keptEntries current)
    rw [List.length_map, List.length_map] at hids
    rw [hids, ← current.map_fst_iterWeighted, List.filter_map, List.length_map]
    rfl
  rw [hperm.length_eq, List.length_append, hkept, addedEntries, List.length_map]

/-- The same command, with its lists in another order. -/
structure Rearranges (cmd cmd' : ReconfigCommand) : Prop where
  adds : cmd.adds.Perm cmd'.adds
  removes : cmd.removes.Perm cmd'.removes
  changes : cmd.changes.Perm cmd'.changes
  vEff : cmd.vEff = cmd'.vEff

theorem Rearranges.symm {cmd cmd' : ReconfigCommand} (h : cmd.Rearranges cmd') :
    cmd'.Rearranges cmd :=
  ⟨h.adds.symm, h.removes.symm, h.changes.symm, h.vEff.symm⟩

theorem Admissible.rearranged {cmd' : ReconfigCommand} {currentView minVEffDelay : ℕ}
    {chainId : ChainId} (h : cmd.Admissible R current currentView minVEffDelay chainId)
    (hr : cmd.Rearranges cmd') :
    cmd'.Admissible R current currentView minVEffDelay chainId := by
  have hadds : ∀ entry ∈ cmd'.adds, entry ∈ cmd.adds := fun _ => hr.adds.mem_iff.mpr
  have hremoves : ∀ n, n ∈ cmd'.removes ↔ n ∈ cmd.removes := fun _ => hr.removes.mem_iff.symm
  have hchanges : ∀ change ∈ cmd'.changes, change ∈ cmd.changes := fun _ => hr.changes.mem_iff.mpr
  have haddIds : cmd.addIds.Perm cmd'.addIds := hr.adds.map _
  have hchangeIds : cmd.changeIds.Perm cmd'.changeIds := hr.changes.map _
  constructor
  · constructor
    · exact haddIds.nodup_iff.mp h.adds_nodup
    · exact hchangeIds.nodup_iff.mp h.changes_nodup
    · intro n hn hm
      exact h.adds_removes n (haddIds.mem_iff.mpr hn) ((hremoves n).mp hm)
    · intro n hn hm
      exact h.removes_changes n ((hremoves n).mp hn) (hchangeIds.mem_iff.mpr hm)
    · exact fun n hn => h.adds_new n (haddIds.mem_iff.mpr hn)
    · exact fun n hn => h.changes_member n (hchangeIds.mem_iff.mpr hn)
  · exact h.no_overflow
  · exact hr.vEff ▸ h.delay
  · exact fun entry he => h.adds_weight entry (hadds entry he)
  · exact fun change hc => h.changes_weight change (hchanges change hc)
  · exact hr.removes.nodup_iff.mp h.removes_nodup
  · intro n hn hm
    exact h.adds_changes n (haddIds.mem_iff.mpr hn) (hchangeIds.mem_iff.mpr hm)
  · exact fun n hn => h.removes_member n ((hremoves n).mp hn)
  · exact fun entry he => h.pops entry (hadds entry he)
  · rw [← hr.vEff]
    exact fun entry he => h.consents entry (hadds entry he)

theorem IsNext.rearranged {cmd' : ReconfigCommand} {next : List (NodeId × UInt64)}
    (h : cmd.IsNext current next) (hr : cmd.Rearranges cmd') : cmd'.IsNext current next where
  sorted := h.sorted
  mem := by
    have hchangeIds : cmd.changeIds.Perm cmd'.changeIds := hr.changes.map _
    intro e
    simp only [h.mem e, hr.adds.mem_iff, hr.changes.mem_iff, hr.removes.mem_iff,
      hchangeIds.mem_iff]

/-- The validation accepts exactly the admissible commands that leave enough validators, and then
gives the set that is meant, whatever the order of the lists. -/
theorem validate_spec (R : ReconfigPrimitives) (cmd : ReconfigCommand) (current : ValidatorSet)
    (currentView minVEffDelay : ℕ) (chainId : ChainId) :
    (∀ next,
      cmd.validateAgainstWithDelayAndChain R current currentView minVEffDelay chainId = .ok next ↔
        cmd.Admissible R current currentView minVEffDelay chainId ∧ cmd.IsNext current next ∧
          minValidatorFloor ≤ next.length) ∧
    ((∃ next,
      cmd.validateAgainstWithDelayAndChain R current currentView minVEffDelay chainId =
        .ok next) ↔
      cmd.Admissible R current currentView minVEffDelay chainId ∧
        minValidatorFloor ≤
          (current.members.filter (· ∉ cmd.removes)).length + cmd.adds.length) ∧
    ∀ cmd', cmd.Rearranges cmd' →
      (cmd'.validateAgainstWithDelayAndChain R current currentView minVEffDelay
        chainId).toOption =
      (cmd.validateAgainstWithDelayAndChain R current currentView minVEffDelay
        chainId).toOption := by
  have hspec : ∀ (cmd : ReconfigCommand) next,
      cmd.validateAgainstWithDelayAndChain R current currentView minVEffDelay chainId = .ok next ↔
        cmd.Admissible R current currentView minVEffDelay chainId ∧ cmd.IsNext current next ∧
          minValidatorFloor ≤ next.length := by
    intro cmd next
    rw [validate_eq_ok]
    refine and_congr_right fun h => and_congr_left fun _ => ?_
    constructor
    · rintro rfl
      exact h.isNext
    · exact fun hnext => hnext.unique h.isNext
  refine ⟨hspec cmd, ?_, ?_⟩
  · constructor
    · rintro ⟨next, hnext⟩
      obtain ⟨h, rfl, hfloor⟩ := validate_eq_ok.mp hnext
      exact ⟨h, h.length_nextMembers ▸ hfloor⟩
    · rintro ⟨h, hfloor⟩
      exact ⟨_, validate_eq_ok.mpr ⟨h, rfl, h.length_nextMembers ▸ hfloor⟩⟩
  · intro cmd' hr
    apply Option.ext
    intro next
    rw [toOption_eq_some, toOption_eq_some, hspec, hspec]
    constructor
    · rintro ⟨h, hnext, hfloor⟩
      exact ⟨h.rearranged hr.symm, hnext.rearranged hr.symm, hfloor⟩
    · rintro ⟨h, hnext, hfloor⟩
      exact ⟨h.rearranged hr, hnext.rearranged hr, hfloor⟩

end ReconfigCommand

end Boule
