import Boule.Node.KeyRuns
import Boule.Node.StagedUpdates

/-! The signing keys and the BLS keys of the validators: which blocks keep the two histories in
step, and which rotations a cancel takes back without a trace. -/
namespace Boule
open ConsensusNode

/-- The views of the entries of one validator. -/
def vEffs (t : Table NodeId (List KeyEntry)) (id : NodeId) : Option (List ℕ) :=
  (t.get? id).map (List.map KeyEntry.vEff)

/-- The same validators have entries, at the same views. -/
def InLockstep (t t' : Table NodeId (List KeyEntry)) : Prop := ∀ id, vEffs t id = vEffs t' id

theorem vEffs_insert (t : Table NodeId (List KeyEntry)) (id id' : NodeId)
    (entries : List KeyEntry) : vEffs (t.insert id entries) id' =
      if id' = id then some (entries.map KeyEntry.vEff) else vEffs t id' := by
  unfold vEffs
  rw [Table.get?_insert]
  split_ifs <;> simp only [Option.map_some]

theorem vEffs_eq_none_iff (t : Table NodeId (List KeyEntry)) (id : NodeId) :
    vEffs t id = none ↔ t.containsKey id = false := by
  unfold vEffs
  rw [Option.map_eq_none_iff, Table.containsKey_eq_false_iff]

section
variable {t t' : Table NodeId (List KeyEntry)} {id : NodeId} {entries entries' : List KeyEntry}

theorem InLockstep.containsKey (h : InLockstep t t') (id : NodeId) :
    t.containsKey id = t'.containsKey id := by
  have hnone : t.containsKey id = false ↔ t'.containsKey id = false := by
    rw [← vEffs_eq_none_iff, ← vEffs_eq_none_iff, h id]
  cases hc : t.containsKey id <;> cases hc' : t'.containsKey id <;> simp_all

theorem InLockstep.insert (h : InLockstep t t')
    (hv : entries.map KeyEntry.vEff = entries'.map KeyEntry.vEff) :
    InLockstep (t.insert id entries) (t'.insert id entries') := by
  intro id'
  rw [vEffs_insert, vEffs_insert, hv, h id']

theorem InLockstep.exists_entries (h : InLockstep t t') (he : t.get? id = some entries) :
    ∃ entries', t'.get? id = some entries' ∧
      entries.map KeyEntry.vEff = entries'.map KeyEntry.vEff := by
  have hsome : vEffs t' id = some (entries.map KeyEntry.vEff) := by
    rw [← h id, vEffs, he, Option.map_some]
  obtain ⟨entries', he', hv⟩ := Option.map_eq_some_iff.mp hsome
  exact ⟨entries', he', hv.symm⟩

theorem last_of_vEffs {last : KeyEntry} (hl : entries.getLast? = some last)
    (hv : entries.map KeyEntry.vEff = entries'.map KeyEntry.vEff) :
    ∃ last', entries'.getLast? = some last' ∧ last'.vEff = last.vEff := by
  have hlast : (entries'.map KeyEntry.vEff).getLast? = some last.vEff := by
    rw [← hv, List.getLast?_map, hl, Option.map_some]
  rw [List.getLast?_map] at hlast
  exact Option.map_eq_some_iff.mp hlast

end

/-! ### Rotations and cancels -/

theorem BlsKeyHistory.cancel_of_last {bls : BlsKeyHistory} {id : NodeId} {entries : List KeyEntry}
    {last : KeyEntry} {cancellingVEff commitView : ℕ}
    (he : bls.byStableId.get? id = some entries) (hl : entries.getLast? = some last)
    (hv : last.vEff = cancellingVEff) (hlt : commitView < cancellingVEff) :
    keepOnError (bls.cancelPendingRotation id cancellingVEff commitView) bls =
      ⟨bls.byStableId.insert id entries.dropLast⟩ := by
  have hok : bls.cancelPendingRotation id cancellingVEff commitView =
      .ok ⟨bls.byStableId.insert id entries.dropLast⟩ :=
    BlsKeyHistory.cancelPendingRotation_eq_ok.mpr ⟨entries, last, he, hl, hv, hlt, rfl⟩
  rw [hok]
  rfl

/-- The signing keys are in lockstep with the BLS keys. -/
def KeysInLockstep (key : ValidatorKeyHistory) (bls : Option BlsKeyHistory) : Prop :=
  ∃ b, bls = some b ∧ InLockstep key.byStableId b.byStableId

section
variable {key key' : ValidatorKeyHistory} {bls : Option BlsKeyHistory}

/-- A rotation gives both histories of its validator an entry at the same view. -/
theorem KeysInLockstep.rotate (h : KeysInLockstep key bls) {rotation : ValidatorKeyRotation}
    {id : NodeId} {view : ℕ} (hr : Rotates view key rotation id key') :
    KeysInLockstep key' (rotateBls bls id rotation) := by
  obtain ⟨b, rfl, h⟩ := h
  obtain ⟨id', entries, last, hid, -, he, hl, hlt, rfl⟩ :=
    ValidatorKeyHistory.applyRotation_eq_ok hr.applied
  obtain rfl := Option.some.inj (hr.stable.symm.trans hid)
  obtain ⟨entries', he', hv⟩ := h.exists_entries he
  obtain ⟨last', hl', hlast⟩ := last_of_vEffs hl hv
  obtain ⟨pk, hpk⟩ := Option.isSome_iff_exists.mp hr.newBls
  refine ⟨_, rotateBls_of_lt hpk he' hl' (by omega), h.insert ?_⟩
  rw [List.map_append, List.map_append, hv]
  rfl

theorem KeysInLockstep.cancel (h : KeysInLockstep key bls) {validator stable : NodeId}
    {cancellingVEff view : ℕ} (hstable : key.validatorFor validator = some stable)
    (hc : key.cancelPendingRotation validator cancellingVEff view = .ok key') :
    KeysInLockstep key' (bls.map fun b : BlsKeyHistory =>
      keepOnError (b.cancelPendingRotation stable cancellingVEff view) b) := by
  obtain ⟨b, rfl, h⟩ := h
  obtain ⟨id, entries, last, hid, he, hl, hveff, hlt, rfl⟩ :=
    ValidatorKeyHistory.cancelPendingRotation_eq_ok.mp hc
  obtain rfl := Option.some.inj (hstable.symm.trans hid)
  obtain ⟨entries', he', hv⟩ := h.exists_entries he
  obtain ⟨last', hl', hlast⟩ := last_of_vEffs hl hv
  have hcancelled := BlsKeyHistory.cancel_of_last he' hl' (hlast.trans hveff) hlt
  refine ⟨_, congrArg some hcancelled, h.insert ?_⟩
  rw [List.map_dropLast, List.map_dropLast, hv]

/-- A rotation and its cancel leave no trace when the new key was not known before. -/
theorem KeysInLockstep.takenBack_iff {key₂ : ValidatorKeyHistory} (h : KeysInLockstep key bls)
    {rotation : ValidatorKeyRotation} {validator id : NodeId} {view view' : ℕ}
    (hr : Rotates view key rotation id key') (hid : key'.validatorFor validator = some id)
    (hc : key'.cancelPendingRotation validator rotation.vEff view' = .ok key₂) :
    (key₂.Alike key ∧ Option.Rel BlsKeyHistory.Alike
        ((rotateBls bls id rotation).map fun b : BlsKeyHistory =>
          keepOnError (b.cancelPendingRotation id rotation.vEff view') b) bls) ↔
      key.pubkeyToStableId.get? rotation.newPubkey = none := by
  obtain ⟨b, rfl, h⟩ := h
  obtain ⟨id', entries, last, hid', -, he, hl, hlt, rfl⟩ :=
    ValidatorKeyHistory.applyRotation_eq_ok hr.applied
  obtain rfl := Option.some.inj (hr.stable.symm.trans hid')
  obtain ⟨id', entries₁, last₁, hid₁, he₁, hl₁, -, hlt₁, rfl⟩ :=
    ValidatorKeyHistory.cancelPendingRotation_eq_ok.mp hc
  obtain rfl := Option.some.inj (hid.symm.trans hid₁)
  rw [Table.get?_insert_self] at he₁
  obtain rfl := Option.some.inj he₁
  rw [List.getLast?_concat] at hl₁
  obtain rfl := Option.some.inj hl₁
  rw [List.dropLast_concat]
  obtain ⟨entries', he', hv⟩ := h.exists_entries he
  obtain ⟨last', hl', hlast⟩ := last_of_vEffs hl hv
  obtain ⟨pk, hpk⟩ := Option.isSome_iff_exists.mp hr.newBls
  have hget : (BlsKeyHistory.mk (b.byStableId.insert id
      (entries' ++ [⟨rotation.vEff, pk⟩]))).byStableId.get? id =
        some (entries' ++ [⟨rotation.vEff, pk⟩]) := Table.get?_insert_self ..
  have hback := BlsKeyHistory.cancel_of_last hget List.getLast?_concat rfl hlt₁
  rw [List.dropLast_concat] at hback
  rw [rotateBls_of_lt hpk he' hl' (by omega), Option.map_some, hback]
  have hbls : Option.Rel BlsKeyHistory.Alike (some ⟨(b.byStableId.insert id
      (entries' ++ [⟨rotation.vEff, pk⟩])).insert id entries'⟩) (some b) :=
    .some (Table.same_insert_back he' _)
  rw [and_iff_left hbls, ← Table.same_erase_insert_iff _ rotation.newPubkey id]
  exact ⟨fun ha => ha.index, fun hs => ⟨Table.same_insert_back he _, hs⟩⟩

end

/-! ### Reconfigurations -/

/-- Unknown members get an entry, at the view of the boundary. -/
theorem get?_seatMembers (key : ValidatorKeyHistory) (vEff : ℕ) (members : List ValidatorId)
    (id : NodeId) : (seatMembers key vEff members).byStableId.get? id =
      (key.byStableId.get? id).or
        (if id ∈ members ∧ ¬ key.Knows id then some [⟨vEff, id⟩] else none) := by
  induction members generalizing key with
  | nil => simp [seatMembers]
  | cons m members ih =>
    rw [seatMembers_cons, ih]
    by_cases hm : key.Knows m
    · rw [if_pos hm]
      by_cases hid : id = m
      · simp [hid, hm]
      · simp [hid]
    · rw [if_neg hm]
      have hnone : key.byStableId.get? m = none := by
        rw [← Table.containsKey_eq_false_iff]
        by_contra hc
        exact hm (.inl (by simpa using hc))
      by_cases hid : id = m
      · obtain rfl := hid
        simp [hm, hnone]
      · have hknows : (ValidatorKeyHistory.mk (key.byStableId.insert m [⟨vEff, m⟩])
            (key.pubkeyToStableId.insert m m)).Knows id ↔ key.Knows id := by
          unfold ValidatorKeyHistory.Knows
          rw [Table.containsKey_insert, Table.containsKey_insert]
          simp [hid]
        rw [Table.get?_insert_of_ne _ hid]
        simp [hid, hknows]

section
variable {R : ReconfigPrimitives} {cmd : ReconfigCommand} {current newSet : ValidatorSet}
  {currentView minVEffDelay : ℕ} {chainId : ChainId}

theorem members_of_admissible
    (ha : cmd.Admissible R current currentView minVEffDelay chainId)
    (hs : ValidatorSet.withWeights (cmd.nextMembers current) = .ok newSet) {id : NodeId}
    (hid : id ∈ newSet.members) : id ∈ current.members ∨ id ∈ cmd.addIds := by
  rw [← newSet.map_fst_iterWeighted] at hid
  obtain ⟨e, he, rfl⟩ := List.mem_map.mp hid
  rcases (ha.toWellFormed.mem_newSet hs e).mp he with hkept | hadded
  · exact .inl (ReconfigCommand.mem_keptIds.mp (List.mem_map_of_mem hkept)).1
  · rw [← ReconfigCommand.map_fst_addedEntries]
    exact .inr (List.mem_map_of_mem hadded)

theorem seated_of_added (ha : cmd.Admissible R current currentView minVEffDelay chainId)
    (hs : ValidatorSet.withWeights (cmd.nextMembers current) = .ok newSet) {id : NodeId}
    (hid : id ∈ cmd.addIds) : id ∈ newSet.members := by
  rw [← ReconfigCommand.map_fst_addedEntries] at hid
  obtain ⟨e, he, rfl⟩ := List.mem_map.mp hid
  rw [← newSet.map_fst_iterWeighted]
  exact List.mem_map_of_mem ((ha.toWellFormed.mem_newSet hs e).mpr (.inr he))

/-- Every added validator brings a BLS key. -/
theorem isSome_lookup_blsSeats (ha : cmd.Admissible R current currentView minVEffDelay chainId)
    (hs : ValidatorSet.withWeights (cmd.nextMembers current) = .ok newSet) (id : NodeId) :
    ((blsSeats cmd newSet).lookup id).isSome = true ↔ id ∈ cmd.addIds := by
  rw [List.lookup_isSome_iff]
  constructor
  · rintro ⟨s, hseat, hid⟩
    obtain ⟨entry, hentry, hsome⟩ := List.mem_filterMap.mp hseat
    obtain ⟨pop, -, hsome⟩ := Option.bind_eq_some_iff.mp hsome
    split_ifs at hsome
    obtain rfl := Option.some.inj hsome
    rw [eq_of_beq hid]
    exact List.mem_map_of_mem hentry
  · intro hid
    have hmember := (newSet.contains_iff id).mpr (seated_of_added ha hs hid)
    obtain ⟨entry, hentry, rfl⟩ := List.mem_map.mp hid
    obtain ⟨pop, hpop, -⟩ := ha.pops entry hentry
    refine ⟨(entry.nodeId, pop.pubkey), List.mem_filterMap.mpr ⟨entry, hentry, ?_⟩, by simp⟩
    rw [hpop, Option.bind_some, if_pos hmember]

end

/-! ### Runs over blocks -/

namespace Histories

def Lockstep (h : Histories) : Prop := KeysInLockstep h.key h.bls

/-- The members of the latest set have signing keys. -/
def Seated (h : Histories) : Prop :=
  ∀ id ∈ h.set.currentSet.members, h.key.byStableId.containsKey id = true

section
variable (R : HistoryPrimitives) (minVEffDelay : ℕ) (chainId : ChainId)

/-- Nobody is added whose id is a key of another validator. -/
def Fresh (h : Histories) (block : Block) : Prop :=
  ∀ change ∈ blockChange R.toReconfigPrimitives minVEffDelay chainId h.set block,
    ∀ id ∈ change.1.addIds,
      h.key.byStableId.containsKey id = true ∨ h.key.pubkeyToStableId.get? id = none

end

variable {R : HistoryPrimitives} {minVEffDelay : ℕ} {chainId : ChainId} {h : Histories}
  {block : Block} {cmd : ReconfigCommand} {newSet : ValidatorSet}

theorem currentSet_reconfigured
    (hc : blockChange R.toReconfigPrimitives minVEffDelay chainId h.set block =
      some (cmd, newSet)) : (h.reconfigured cmd newSet).set.currentSet = newSet := by
  obtain ⟨set, hi, -⟩ := ValidatorSetHistory.insertBoundary_of_lt (last_lt_of_blockChange hc) newSet
  have hset : (h.reconfigured cmd newSet).set = set :=
    ValidatorSetHistory.extend_of_insertBoundary hi
  rw [hset, ValidatorSetHistory.currentSet, ValidatorSetHistory.last_of_insertBoundary hi]

/-- A newcomer gets its two entries together, or none. -/
theorem lockstep_reconfigured (hl : h.Lockstep) (hs : h.Seated)
    (hc : blockChange R.toReconfigPrimitives minVEffDelay chainId h.set block =
      some (cmd, newSet))
    (hfresh : ∀ id ∈ cmd.addIds,
      h.key.byStableId.containsKey id = true ∨ h.key.pubkeyToStableId.get? id = none) :
    (h.reconfigured cmd newSet).Lockstep := by
  obtain ⟨hadmissible, hset⟩ := StagingNode.admissible_of_blockChange hc
  obtain ⟨bls, hb, hl⟩ := hl
  refine ⟨_, congrArg (Option.map fun bls => registerBlsKeys bls cmd newSet) hb, fun id => ?_⟩
  have hold := hl id
  unfold vEffs at hold ⊢
  simp only [reconfigured, registerBlsKeys_eq, get?_seatMembers, get?_registerAll]
  cases he : h.key.byStableId.get? id with
  | some entries =>
    rw [he] at hold
    obtain ⟨entries', he', hv⟩ := Option.map_eq_some_iff.mp hold.symm
    rw [he']
    simp [hv]
  | none =>
    rw [he] at hold
    have he' : bls.byStableId.get? id = none := Option.map_eq_none_iff.mp hold.symm
    have hunknown := (Table.containsKey_eq_false_iff h.key.byStableId id).mpr he
    rw [he', Option.none_or, Option.none_or]
    by_cases hadd : id ∈ cmd.addIds
    · have hfree : h.key.pubkeyToStableId.get? id = none := by
        refine (hfresh id hadd).resolve_left ?_
        rw [hunknown]
        exact Bool.false_ne_true
      have hindex := (Table.containsKey_eq_false_iff h.key.pubkeyToStableId id).mpr hfree
      have hnew : id ∈ newSet.members ∧ ¬ h.key.Knows id := by
        refine ⟨seated_of_added hadmissible hset hadd, ?_⟩
        unfold ValidatorKeyHistory.Knows
        rw [hunknown, hindex]
        simp
      obtain ⟨pk, hpk⟩ := Option.isSome_iff_exists.mp
        ((isSome_lookup_blsSeats hadmissible hset id).mpr hadd)
      rw [if_pos hnew, hpk]
      rfl
    · have hnone : (blsSeats cmd newSet).lookup id = none := by
        rw [← Option.not_isSome_iff_eq_none, isSome_lookup_blsSeats hadmissible hset]
        exact hadd
      have hold : ¬ (id ∈ newSet.members ∧ ¬ h.key.Knows id) := by
        rintro ⟨hmember, hk⟩
        rcases members_of_admissible hadmissible hset hmember with hmem | hmem
        · exact hk (.inl (hs id hmem))
        · exact hadd hmem
      rw [if_neg hold, hnone]
      rfl

theorem Lockstep.ids (hl : h.Lockstep) : h.ids.2.1 = some h.ids.1 := by
  obtain ⟨bls, hb, hl⟩ := hl
  have hsame : h.key.byStableId.containsKey = bls.byStableId.containsKey :=
    funext hl.containsKey
  unfold Histories.ids
  rw [hb, hsame]
  rfl

/-- A newcomer whose id is a key of another validator gets a BLS key only. -/
theorem fresh_of_ids (hb : h.bls.isSome = true)
    (hids : (h.reconfigured cmd newSet).ids.2.1 = some (h.reconfigured cmd newSet).ids.1)
    (hc : blockChange R.toReconfigPrimitives minVEffDelay chainId h.set block =
      some (cmd, newSet)) : ∀ id ∈ cmd.addIds,
      h.key.byStableId.containsKey id = true ∨ h.key.pubkeyToStableId.get? id = none := by
  obtain ⟨hadmissible, hset⟩ := StagingNode.admissible_of_blockChange hc
  obtain ⟨bls, hb⟩ := Option.isSome_iff_exists.mp hb
  intro id hadd
  by_contra hstray
  obtain ⟨hunknown, hindex⟩ := not_or.mp hstray
  have hknows : h.key.Knows id := by
    right
    rw [Table.containsKey_iff]
    exact Option.ne_none_iff_exists'.mp hindex
  have hkey : (h.reconfigured cmd newSet).key.byStableId.containsKey id = false := by
    rw [Table.containsKey_eq_false_iff]
    have he := (Table.containsKey_eq_false_iff h.key.byStableId id).mp (by simpa using hunknown)
    simp [reconfigured, get?_seatMembers, he, hknows]
  have hbls : (registerBlsKeys bls cmd newSet).byStableId.containsKey id = true := by
    obtain ⟨pk, hpk⟩ := Option.isSome_iff_exists.mp
      ((isSome_lookup_blsSeats hadmissible hset id).mpr hadd)
    rw [registerBlsKeys_eq, Table.containsKey_iff, get?_registerAll, hpk]
    cases bls.byStableId.get? id <;> simp
  have hsame : (registerBlsKeys bls cmd newSet).byStableId.containsKey =
      (h.reconfigured cmd newSet).key.byStableId.containsKey := by
    unfold Histories.ids at hids
    simp only [reconfigured, hb, Option.map_some, Option.some.injEq] at hids
    exact hids
  rw [hsame, hkey] at hbls
  cases hbls

variable (R chainId) in
theorem lockstep_rotated (hl : h.Lockstep) (block : Block) :
    (applyRotationCommandsToHistories R chainId block h).Lockstep :=
  rotated_keeps R chainId (Q := KeysInLockstep) (fun _ hr hq => hq.rotate hr)
    (fun hstable hc hq => hq.cancel hstable hc) block hl

variable (R chainId) in
theorem seated_rotated (hs : h.Seated) (block : Block) :
    (applyRotationCommandsToHistories R chainId block h).Seated := by
  intro id hid
  rw [set_rotated] at hid
  have hids := ids_applyRotationCommandsToHistories R chainId block h
  exact (congrFun (congrArg Prod.fst hids) id).trans (hs id hid)

theorem seated_reconfigured (hs : h.Seated)
    (hc : blockChange R.toReconfigPrimitives minVEffDelay chainId h.set block =
      some (cmd, newSet))
    (hfresh : ∀ id ∈ cmd.addIds,
      h.key.byStableId.containsKey id = true ∨ h.key.pubkeyToStableId.get? id = none) :
    (h.reconfigured cmd newSet).Seated := by
  obtain ⟨hadmissible, hset⟩ := StagingNode.admissible_of_blockChange hc
  intro id hid
  rw [currentSet_reconfigured hc] at hid
  by_cases hknown : h.key.byStableId.containsKey id = true
  · exact containsKey_seatMembers hknown _ _
  · have hadd : id ∈ cmd.addIds :=
      (members_of_admissible hadmissible hset hid).resolve_left fun hmem => hknown (hs id hmem)
    have hfree := (hfresh id hadd).resolve_left hknown
    have hindex := (Table.containsKey_eq_false_iff h.key.pubkeyToStableId id).mpr hfree
    have hnew : ¬ h.key.Knows id := by
      unfold ValidatorKeyHistory.Knows
      rw [hindex]
      simp [hknown]
    exact containsKey_seatMembers_of_mem hid hnew _

variable (R minVEffDelay chainId) in
/-- A block keeps the lockstep exactly when it adds no key of another validator as an id. -/
theorem lockstep_replayBlock_iff (hl : h.Lockstep) (hs : h.Seated) (block : Block) :
    ((replayBlock R minVEffDelay chainId h block).Lockstep ↔
        Fresh R minVEffDelay chainId h block) ∧
      (Fresh R minVEffDelay chainId h block →
        (replayBlock R minVEffDelay chainId h block).Seated) := by
  unfold replayBlock
  rw [applyReconfigCommandsToSetHistory_eq]
  cases hc : blockChange R.toReconfigPrimitives minVEffDelay chainId h.set block with
  | none =>
    have hfresh : Fresh R minVEffDelay chainId h block := by
      intro change hchange
      rw [hc] at hchange
      cases hchange
    exact ⟨iff_of_true (lockstep_rotated R chainId hl block) hfresh,
      fun _ => seated_rotated R chainId hs block⟩
  | some change =>
    obtain ⟨cmd, newSet⟩ := change
    have hfresh_iff : Fresh R minVEffDelay chainId h block ↔ ∀ id ∈ cmd.addIds,
        h.key.byStableId.containsKey id = true ∨ h.key.pubkeyToStableId.get? id = none := by
      unfold Fresh
      rw [hc]
      simp
    rw [hfresh_iff]
    refine ⟨⟨fun hrotated => ?_, fun hfresh => ?_⟩, fun hfresh => ?_⟩
    · have hids := hrotated.ids
      rw [ids_applyRotationCommandsToHistories] at hids
      obtain ⟨bls, hb, -⟩ := hl
      exact fresh_of_ids (by rw [hb]; rfl) hids hc
    · exact lockstep_rotated R chainId (lockstep_reconfigured hl hs hc hfresh) block
    · exact seated_rotated R chainId (seated_reconfigured hs hc hfresh) block

/-! ### From matching genesis histories -/

/-- Histories that start with a set, and with a signing and a BLS key of each member. -/
structure Matching (genesis : ValidatorSet) (genesisBls : List (NodeId × BlsPublicKey))
    (h : Histories) : Prop where
  set : h.set = .fromGenesis genesis
  key : h.key.Alike (.new genesis.members)
  bls : h.bls = some (.withGenesis genesisBls)
  members : ∀ id, id ∈ genesisBls.map Prod.fst ↔ id ∈ genesis.members

variable {genesis : ValidatorSet} {genesisBls : List (NodeId × BlsPublicKey)}

theorem Matching.entries (hg : h.Matching genesis genesisBls) (id : NodeId) :
    h.key.byStableId.get? id = if id ∈ genesis.members then some [⟨0, id⟩] else none := by
  rw [hg.key.entries id, ValidatorKeyHistory.entries_new]

theorem Matching.lockstep (hg : h.Matching genesis genesisBls) : h.Lockstep := by
  refine ⟨_, hg.bls, fun id => ?_⟩
  unfold vEffs
  rw [hg.entries, get?_withGenesis]
  have hlookup : (genesisBls.reverse.lookup id).isSome = true ↔ id ∈ genesis.members := by
    rw [← hg.members id, List.lookup_isSome_iff]
    simp
  by_cases hid : id ∈ genesis.members
  · obtain ⟨pk, hpk⟩ := Option.isSome_iff_exists.mp (hlookup.mpr hid)
    rw [if_pos hid, hpk]
    rfl
  · have hnone : genesisBls.reverse.lookup id = none := by
      rw [← Option.not_isSome_iff_eq_none, hlookup]
      exact hid
    rw [if_neg hid, hnone]
    rfl

theorem Matching.seated (hg : h.Matching genesis genesisBls) : h.Seated := by
  intro id hid
  rw [hg.set] at hid
  rw [Table.containsKey_iff, hg.entries]
  exact ⟨_, if_pos hid⟩

variable (R chainId) in
/-- A command of the validator or of its operator that rotates a key. -/
inductive RotatedBy (h : Histories) : ValidatorKeyRotation → Histories → Prop
  | validator {view : ℕ} {bytes : Bytes} {rotation : ValidatorKeyRotation}
      {stable : Option ValidatorId} {key : ValidatorKeyHistory}
      (accepted : acceptedRotation R chainId view h.key bytes = some (rotation, stable, key)) :
      RotatedBy h rotation (applyRotationCommand R chainId view h bytes)
  | operator {view : ℕ} {bytes : Bytes} {op : OperatorKeyHistory} {env : OperatorSignedRotation}
      {h' : Histories} (held : h.operator = some op)
      (decoded : decodeTagged operatorRotationTag R.decodeOperatorRotation bytes = some env)
      (applied : applyOperatorRotationCommand R chainId view op h bytes = .ok (h', true)) :
      RotatedBy h env.payload h'

variable (R chainId) in
/-- A rotation, and then a cancel of it. -/
inductive TakenBack (h : Histories) (rotation : ValidatorKeyRotation) : Histories → Prop
  | intro {view : ℕ} {bytes : Bytes} {cancel : DualSignedRotationCancel} {h₁ h₂ : Histories}
      (rotated : RotatedBy R chainId h rotation h₁)
      (decoded : decodeTagged rotationCancelTag R.decodeCancel bytes = some cancel)
      (validator : h₁.key.validatorFor cancel.payload.validator =
        h.key.validatorFor rotation.validator)
      (vEff : cancel.payload.cancellingVEff = rotation.vEff)
      (applied : applyRotationCancelCommand R chainId view h₁ bytes = .ok (h₂, true)) :
      TakenBack h rotation h₂

/-- The keys, their index and the BLS keys have the same lookups. -/
def SameKeys (h h' : Histories) : Prop :=
  h.key.Alike h'.key ∧ Option.Rel BlsKeyHistory.Alike h.bls h'.bls

theorem RotatedBy.rotates {rotation : ValidatorKeyRotation} {h₁ : Histories}
    (hr : RotatedBy R chainId h rotation h₁) :
    ∃ view id, Rotates view h.key rotation id h₁.key ∧ h₁.bls = rotateBls h.bls id rotation := by
  cases hr with
  | validator accepted =>
    obtain ⟨id, rfl, hr⟩ := rotates_of_acceptedRotation accepted
    rw [applyRotationCommand_of_some accepted]
    exact ⟨_, id, hr, rfl⟩
  | operator held decoded applied =>
    obtain ⟨env, id, key, henv, hr, rfl⟩ := rotates_of_applyOperatorRotation applied
    obtain rfl := Option.some.inj (decoded.symm.trans henv)
    exact ⟨_, id, hr, rfl⟩

theorem TakenBack.sameKeys_iff (hl : h.Lockstep) {rotation : ValidatorKeyRotation}
    {h₂ : Histories} (ht : TakenBack R chainId h rotation h₂) :
    h₂.SameKeys h ↔ h.key.pubkeyToStableId.get? rotation.newPubkey = none := by
  obtain ⟨rotated, decoded, hvalidator, hvEff, applied⟩ := ht
  obtain ⟨view, id, hr, hbls⟩ := rotated.rotates
  obtain ⟨cancel, stable, hcancel, hstable, hkey, hbls₂⟩ := histories_of_cancel applied
  obtain rfl := Option.some.inj (decoded.symm.trans hcancel)
  have hid := hvalidator.trans hr.stable
  obtain rfl := Option.some.inj (hstable.symm.trans hid)
  rw [hvEff] at hkey hbls₂
  unfold SameKeys
  rw [hbls₂, hbls]
  exact KeysInLockstep.takenBack_iff hl hr hstable hkey

variable (R minVEffDelay chainId) in
/-- The histories are in lockstep throughout exactly as long as no key of another validator is
added as an id, and then a cancel takes a rotation back without a trace exactly when the new key
was not known before. -/
theorem lockstep_iff_fresh (hg : h.Matching genesis genesisBls) (blocks : List Block) :
    ((∀ k, (run (replayBlock R minVEffDelay chainId) h (blocks.take k)).Lockstep) ↔
        Along (replayBlock R minVEffDelay chainId) (Fresh R minVEffDelay chainId) h blocks) ∧
      (Along (replayBlock R minVEffDelay chainId) (Fresh R minVEffDelay chainId) h blocks →
        ∀ rotation h', TakenBack R chainId (run (replayBlock R minVEffDelay chainId) h blocks)
            rotation h' →
          (h'.SameKeys (run (replayBlock R minVEffDelay chainId) h blocks) ↔
            (run (replayBlock R minVEffDelay chainId) h blocks).key.pubkeyToStableId.get?
              rotation.newPubkey = none)) := by
  have hstep : ∀ (h : Histories) (block : Block), h.Lockstep ∧ h.Seated →
      Fresh R minVEffDelay chainId h block →
        (replayBlock R minVEffDelay chainId h block).Lockstep ∧
          (replayBlock R minVEffDelay chainId h block).Seated := by
    rintro h block ⟨hl, hs⟩ hfresh
    obtain ⟨hiff, hseated⟩ := lockstep_replayBlock_iff R minVEffDelay chainId hl hs block
    exact ⟨hiff.mpr hfresh, hseated hfresh⟩
  have hstart : h.Lockstep ∧ h.Seated := ⟨hg.lockstep, hg.seated⟩
  constructor
  · exact along_iff_of_invariant (fun _ hi => hi.1) hstep
      (fun h block hi => (lockstep_replayBlock_iff R minVEffDelay chainId hi.1 hi.2 block).1.mp)
      hstart
  · intro hfresh rotation h' ht
    obtain ⟨hl, -⟩ := hfresh.invariant (fun h block hq hi => hstep h block hi hq) hstart
    exact ht.sameKeys_iff hl

end Histories

namespace Sample
open Histories

instance (h : Histories) (block : Block) :
    Decidable (Fresh allChanges config.minVEffDelay chainId h block) :=
  inferInstanceAs (Decidable (∀ change ∈ _, ∀ id ∈ _, _ ∨ _))

def replayed (blocks : List Block) : Histories :=
  run (replayBlock allChanges config.minVEffDelay chainId) config.genesisHistories blocks

theorem matching_config :
    config.genesisHistories.Matching config.validatorSet config.genesisBls where
  set := rfl
  key := by
    constructor
    · intro id
      rw [entries_genesis, ValidatorKeyHistory.entries_new]
    · intro key
      rw [index_genesis, ValidatorKeyHistory.index_new]
  bls := rfl
  members := by
    intro id
    simp [config, validators]

/-- Validator 4 rotates to the key 40, which nobody has had. -/
theorem rotating_lockstep : (replayed [rotating]).Lockstep :=
  (lockstep_iff_fresh allChanges config.minVEffDelay chainId matching_config [rotating]).1.mpr
    (by decide +kernel) 1

/-- The key 40 of validator 4 is added as a validator from view 16 on, with the BLS key 15. -/
def addKey₄₀ : Block := blockOn rotating 11 0 [reconfigTag ++ [1, 40, 15, 1, 16]]

/-- Validator 4 goes back to its first key from view 20 on. -/
def back₄ : Bytes := rotationTag ++ [40, 4, 45, 20]

def cancelBack₄ : Bytes := rotationCancelTag ++ [40, 20]

theorem lockstep_breaks : ¬ (replayed [rotating, addKey₄₀]).Lockstep ∧
    ∃ rotation h', TakenBack allChanges chainId (replayed [rotating]) rotation h' ∧
      ¬ h'.SameKeys (replayed [rotating]) := by
  constructor
  · rintro ⟨bls, hb, hl⟩
    have hkey : (replayed [rotating, addKey₄₀]).key.byStableId.containsKey 40 = false := by
      decide +kernel
    have hbls : (replayed [rotating, addKey₄₀]).bls.all fun b => b.byStableId.containsKey 40 := by
      decide +kernel
    rw [hb] at hbls
    have hsame := hl.containsKey 40
    rw [hkey] at hsame
    rw [Option.all_some, ← hsame] at hbls
    cases hbls
  · have hr : ((acceptedRotation allChanges chainId 12 (replayed [rotating]).key back₄).map
        Prod.fst) = some ⟨40, 4, 20, some 45, some ⟨45, 0⟩⟩ := by
      decide +kernel
    obtain ⟨⟨rotation, stable, key⟩, haccepted, rfl⟩ := Option.map_eq_some_iff.mp hr
    have hc : (applyRotationCancelCommand allChanges chainId 13
        (applyRotationCommand allChanges chainId 12 (replayed [rotating]) back₄)
        cancelBack₄).toOption.all fun r => r.2 && (r.1.key.pubkeyToStableId.get? 4).isNone := by
      decide +kernel
    have hs : (applyRotationCancelCommand allChanges chainId 13
        (applyRotationCommand allChanges chainId 12 (replayed [rotating]) back₄)
        cancelBack₄).toOption.isSome = true := by
      decide +kernel
    obtain ⟨⟨h', applied⟩, hh⟩ := Option.isSome_iff_exists.mp hs
    rw [hh, Option.all_some, Bool.and_eq_true] at hc
    obtain ⟨rfl, hlost⟩ := hc
    have hcancel : decodeTagged rotationCancelTag allChanges.decodeCancel cancelBack₄ =
        some ⟨⟨40, 20⟩, 0, 0⟩ := by decide
    refine ⟨_, h', .intro (.validator haccepted) hcancel (by decide +kernel) rfl
      (toOption_eq_some.mp hh), fun hsame => ?_⟩
    have hknown : (replayed [rotating]).key.pubkeyToStableId.get? 4 = some 4 := by decide +kernel
    rw [← hsame.1.index 4] at hknown
    rw [hknown] at hlost
    cases hlost

end Sample

end Boule
