import Boule.NextMembers
import Boule.Node.Rotations
import Boule.Reth.DerivedWeights
import Boule.Reth.Execution

/-! What the application asks for and when it lands: staged validator updates and the staged
governance command. -/
namespace Boule
open ConsensusNode

/-- `APP_RECONFIG_SETTLE_VIEWS` -/
def appReconfigSettleViews : ℕ := 8

/-- The command that brings the seated validators to their last weights. -/
def stagedUpdatesToReconfig (updates : List ValidatorUpdate) (current : ValidatorSet)
    (vEff : ℕ) : Option ReconfigCommand :=
  let target := updates.foldl (fun t u => t.insert u.nodeId u.weight) (∅ : Table NodeId ℕ)
  let seated := (Table.toList target).filter fun e => current.contains e.1
  let sorted := seated.insertionSort fun a b => a.1 ≤ b.1
  let removes := (sorted.filter fun e => e.2 = 0).map Prod.fst
  let changes := (sorted.filter fun e => e.2 ≠ 0).map fun e => ⟨e.1, UInt64.ofNat e.2⟩
  if removes = [] ∧ changes = [] then none else some ⟨[], removes, changes, vEff⟩

/-- A node with what it has staged; `committedEvidence` are the jailed validators. -/
structure StagingNode where
  node : ConsensusNode
  committedEvidence : List ValidatorId
  stagedValidatorUpdates : List ValidatorUpdate
  stagedEffects : List ValidatorEffect
  stagedGovernanceReconfig : Option ReconfigCommand
  deriving DecidableEq

namespace StagingNode

def currentSet (s : StagingNode) : ValidatorSet := s.node.validatorHistory.currentSet

def jailRemoves (s : StagingNode) (current : ValidatorSet) : List ValidatorUpdate :=
  let seated := sortedSet (s.committedEvidence.filter current.contains)
  let appRemoves := (s.stagedValidatorUpdates.filter fun u =>
    u.weight = 0 ∧ current.contains u.nodeId).length
  let budget := current.len - minValidatorFloor - appRemoves
  (seated.take budget).map fun v => ⟨v, 0⟩

/-- A boundary is ahead of the view. -/
def boundaryAhead (s : StagingNode) (view : ℕ) : Bool :=
  s.node.validatorHistory.iter.any fun b => b.1 ≠ 0 && view < b.1

section
variable (R : ReconfigPrimitives) (minVEffDelay : ℕ) (chainId : ChainId)

/-- With the command that goes to the mempool. -/
def mintStagedReconfig (s : StagingNode) (view : ℕ) : StagingNode × Option ReconfigCommand :=
  let current := s.node.validatorHistory.setAt view
  let jail := s.jailRemoves current
  if s.stagedValidatorUpdates = [] ∧ jail = [] then (s, none)
  else if s.boundaryAhead view then (s, none)
  else
    match checkedAddU64 view (max (max minVEffDelay delayFloor) appReconfigSettleViews) with
    | none => (s, none)
    | some vEff =>
      match stagedUpdatesToReconfig (s.stagedValidatorUpdates ++ jail) current vEff with
      | none => ({ s with stagedValidatorUpdates := [] }, none)
      | some cmd => (s, some cmd)

/-- A governance command that cannot take effect in time any more. -/
def tooSoon (cmd : ReconfigCommand) (view : ℕ) : Bool :=
  (checkedAddU64 view (max minVEffDelay delayFloor)).all fun earliest => cmd.vEff < earliest

def mintStagedGovernanceReconfig (s : StagingNode) (view : ℕ) :
    StagingNode × Option ReconfigCommand :=
  match s.stagedGovernanceReconfig with
  | none => (s, none)
  | some cmd =>
    if tooSoon minVEffDelay cmd view then ({ s with stagedGovernanceReconfig := none }, none)
    else if s.boundaryAhead view then (s, none)
    else (s, some cmd)

/-- A governance effect is staged; the other ones go to the mempool. -/
def stageEffect (staged : Option ReconfigCommand) : ValidatorEffect → Option ReconfigCommand
  | .reconfig bytes =>
    match ReconfigCommand.decode R bytes with
    | .ok cmd => some cmd
    | .error _ => staged
  | _ => staged

def mintStagedEffects (s : StagingNode) : StagingNode :=
  { s with
    stagedEffects := []
    stagedGovernanceReconfig := s.stagedEffects.foldl (stageEffect R) s.stagedGovernanceReconfig }

/-! ### Commits -/

def stageAppValidatorUpdates (s : StagingNode) (result : CommitResult) : StagingNode :=
  { s with
    stagedValidatorUpdates := s.stagedValidatorUpdates ++ result.validatorUpdates
    stagedEffects := s.stagedEffects ++ result.effects }

def applyReconfigPayload (blockView : ℕ) (progress : StagingNode × Bool) (bytes : Bytes) :
    StagingNode × Bool :=
  match reconfigChange R minVEffDelay chainId progress.1.node.validatorHistory blockView bytes with
  | none => progress
  | some (cmd, newSet) =>
    let (node, applied) := progress.1.node.applyReconfig cmd newSet
    let staged := progress.1.stagedGovernanceReconfig
    ({ progress.1 with
        node := node
        stagedGovernanceReconfig := if applied ∧ staged = some cmd then none else staged },
      progress.2 || applied)

/-- The staged updates are cleared once a command is applied. -/
def applyCommittedReconfigs (s : StagingNode) (block : Block) : StagingNode :=
  let (s, applied) := block.commands.foldl
    (applyReconfigPayload R minVEffDelay chainId block.header.view) (s, false)
  if applied then { s with stagedValidatorUpdates := [] } else s

/-- The part of `commit_block` that concerns the sets and the stages; the evidence of the block
convicts these validators. -/
def commitBlock (s : StagingNode) (result : CommitResult) (block : Block)
    (convicted : List ValidatorId) : StagingNode :=
  let s := (s.stageAppValidatorUpdates result).applyCommittedReconfigs R minVEffDelay chainId block
  { s with committedEvidence := s.committedEvidence ++ convicted }

end

end StagingNode

open StagingNode

namespace StagingNode
variable {R : ReconfigPrimitives} {minVEffDelay : ℕ} {chainId : ChainId}

theorem foldl_applyReconfigPayload {s : StagingNode} {blockView : ℕ}
    (h : blockView < s.node.validatorHistory.last.vEff) (applied : Bool) (commands : List Bytes) :
    commands.foldl (applyReconfigPayload R minVEffDelay chainId blockView) (s, applied) =
      (s, applied) := by
  induction commands with
  | nil => rfl
  | cons bytes commands ih =>
    rw [List.foldl_cons, applyReconfigPayload, reconfigChange_eq_none h]
    exact ih

/-- At most one command of a block lands. -/
theorem applyCommittedReconfigs_eq (s : StagingNode) (block : Block) :
    s.applyCommittedReconfigs R minVEffDelay chainId block =
      match blockChange R minVEffDelay chainId s.node.validatorHistory block with
      | none => s
      | some (cmd, newSet) =>
        let (node, applied) := s.node.applyReconfig cmd newSet
        { s with
          node := node
          stagedGovernanceReconfig :=
            if applied ∧ s.stagedGovernanceReconfig = some cmd then none
            else s.stagedGovernanceReconfig
          stagedValidatorUpdates := if applied then [] else s.stagedValidatorUpdates } := by
  unfold applyCommittedReconfigs blockChange
  induction block.commands with
  | nil => rfl
  | cons bytes commands ih =>
    rw [List.foldl_cons, applyReconfigPayload]
    cases hc : reconfigChange R minVEffDelay chainId s.node.validatorHistory block.header.view
        bytes with
    | none =>
      rw [List.findSome?_cons_of_isNone (by simp [hc])]
      exact ih
    | some change =>
      obtain ⟨cmd, newSet⟩ := change
      rw [List.findSome?_cons_of_isSome (by simp [hc]), hc]
      have happly := changeApplied_applyReconfig (last_lt_of_reconfigChange hc) newSet
      have hlast : (s.node.applyReconfig cmd newSet).1.validatorHistory.last.vEff = cmd.vEff := by
        rw [ValidatorSetHistory.last_of_insertBoundary happly.inserted]
      have hdelay := (reconfigChange_eq_some hc).1
      have hfloor : delayFloor = 4 := rfl
      simp only [Bool.false_or]
      rw [foldl_applyReconfigPayload (by simp only; omega)]
      cases (s.node.applyReconfig cmd newSet).2 <;> rfl

/-- What a command that lands makes of the latest set. -/
theorem admissible_of_blockChange {history : ValidatorSetHistory} {block : Block}
    {cmd : ReconfigCommand} {newSet : ValidatorSet}
    (h : blockChange R minVEffDelay chainId history block = some (cmd, newSet)) :
    cmd.Admissible R history.currentSet block.header.view minVEffDelay chainId ∧
      ValidatorSet.withWeights (cmd.nextMembers history.currentSet) = .ok newSet := by
  obtain ⟨bytes, -, hc⟩ := List.exists_of_findSome?_eq_some h
  obtain ⟨-, hbefore⟩ := reconfigChange_eq_some hc
  have hlast : history.last.vEff ≤ block.header.view :=
    hbefore (history.last.vEff, history.last.set)
      (List.mem_map_of_mem (List.getLast_mem history.boundaries_ne_nil))
  by_cases htag : (!ReconfigCommand.isReconfigPayload bytes) = true
  · simp [reconfigChange, htag] at hc
  · simp only [reconfigChange, if_neg htag, Option.bind_eq_bind] at hc
    obtain ⟨cmd', -, hc⟩ := Option.bind_eq_some_iff.mp hc
    obtain ⟨next, hnext, hc⟩ := Option.bind_eq_some_iff.mp hc
    split_ifs at hc with hconflict
    · cases hc
    · obtain ⟨set, hset, hc⟩ := Option.bind_eq_some_iff.mp hc
      obtain ⟨rfl, rfl⟩ := Prod.mk.inj (Option.some.inj hc)
      have hvalid := toOption_eq_some.mp hnext
      rw [ValidatorSetHistory.setAt_of_last_le hlast] at hvalid
      obtain ⟨hadmissible, rfl, -⟩ := ReconfigCommand.validate_eq_ok.mp hvalid
      exact ⟨hadmissible, toOption_eq_some.mp hset⟩

theorem wellFormed_of_blockChange {history : ValidatorSetHistory} {block : Block}
    {cmd : ReconfigCommand} {newSet : ValidatorSet}
    (h : blockChange R minVEffDelay chainId history block = some (cmd, newSet)) :
    cmd.WellFormed history.currentSet ∧
      ValidatorSet.withWeights (cmd.nextMembers history.currentSet) = .ok newSet := by
  obtain ⟨hadmissible, hset⟩ := admissible_of_blockChange h
  exact ⟨hadmissible.toWellFormed, hset⟩

variable {s : StagingNode} {block : Block}

/-- Without a command that lands the updates of the block are only staged. -/
theorem commitBlock_of_none
    (h : blockChange R minVEffDelay chainId s.node.validatorHistory block = none)
    (result : CommitResult) (convicted : List ValidatorId) :
    s.commitBlock R minVEffDelay chainId result block convicted =
      { s with
        stagedValidatorUpdates := s.stagedValidatorUpdates ++ result.validatorUpdates
        stagedEffects := s.stagedEffects ++ result.effects
        committedEvidence := s.committedEvidence ++ convicted } := by
  unfold commitBlock
  simp only [applyCommittedReconfigs_eq, stageAppValidatorUpdates, h]

theorem commitBlock_of_some {cmd : ReconfigCommand} {newSet : ValidatorSet}
    (h : blockChange R minVEffDelay chainId s.node.validatorHistory block = some (cmd, newSet))
    (result : CommitResult) (convicted : List ValidatorId) :
    s.commitBlock R minVEffDelay chainId result block convicted =
      { s with
        node := (s.node.applyReconfig cmd newSet).1
        stagedGovernanceReconfig :=
          if (s.node.applyReconfig cmd newSet).2 ∧ s.stagedGovernanceReconfig = some cmd then none
          else s.stagedGovernanceReconfig
        stagedValidatorUpdates := if (s.node.applyReconfig cmd newSet).2 then []
          else s.stagedValidatorUpdates ++ result.validatorUpdates
        stagedEffects := s.stagedEffects ++ result.effects
        committedEvidence := s.committedEvidence ++ convicted } := by
  unfold commitBlock
  simp only [applyCommittedReconfigs_eq, stageAppValidatorUpdates, h]

theorem committedEvidence_commitBlock (result : CommitResult) (convicted : List ValidatorId) :
    (s.commitBlock R minVEffDelay chainId result block convicted).committedEvidence =
      s.committedEvidence ++ convicted := by
  cases h : blockChange R minVEffDelay chainId s.node.validatorHistory block with
  | none => rw [commitBlock_of_none h]
  | some change => rw [commitBlock_of_some h]

theorem currentSet_commitBlock {cmd : ReconfigCommand} {newSet : ValidatorSet}
    (h : blockChange R minVEffDelay chainId s.node.validatorHistory block = some (cmd, newSet))
    (result : CommitResult) (convicted : List ValidatorId) :
    (s.commitBlock R minVEffDelay chainId result block convicted).currentSet = newSet := by
  have happly := changeApplied_applyReconfig (last_lt_of_blockChange h) newSet
  rw [commitBlock_of_some h, currentSet, ValidatorSetHistory.currentSet,
    ValidatorSetHistory.last_of_insertBoundary happly.inserted]

end StagingNode

/-! ### Runs -/

inductive StagingInput where
  | commit (result : CommitResult) (block : Block) (convicted : List ValidatorId)
  | mintReconfig (view : ℕ)
  | mintEffects
  | mintGovernance (view : ℕ)

/-- A node with what the application has asked for: `due` is the weight of a validator's last
update as long as it is seated and governance does not change it, `governance` all commands that
governance has approved. -/
structure StagingRun where
  node : StagingNode
  due : NodeId → Option ℕ
  governance : List ReconfigCommand

def ReconfigCommand.Touches (cmd : ReconfigCommand) (v : NodeId) : Prop :=
  v ∈ cmd.removes ∨ v ∈ cmd.changeIds

instance (cmd : ReconfigCommand) (v : NodeId) : Decidable (cmd.Touches v) :=
  inferInstanceAs (Decidable (_ ∨ _))

namespace StagingRun

def start (node : ConsensusNode) : StagingRun := ⟨⟨node, [], [], [], none⟩, fun _ => none, []⟩

section
variable (R : ReconfigPrimitives) (minVEffDelay : ℕ) (chainId : ChainId)

/-- The commands of the governance effects. -/
def governanceOf (effects : List ValidatorEffect) : List ReconfigCommand :=
  effects.filterMap (stageEffect R none)

/-- The weights that are due with the updates of a block. -/
def dueWith (s : StagingRun) (updates : List ValidatorUpdate) (v : NodeId) : Option ℕ :=
  match lastUpdate updates v with
  | none => s.due v
  | some w => if s.node.currentSet.contains v then some w else none

def landed (s : StagingRun) (block : Block) : Option (ReconfigCommand × ValidatorSet) :=
  blockChange R minVEffDelay chainId s.node.node.validatorHistory block

/-- A removed validator is due the weight zero until it is added again. -/
def commit (s : StagingRun) (result : CommitResult) (block : Block)
    (convicted : List ValidatorId) : StagingRun :=
  let node := s.node.commitBlock R minVEffDelay chainId result block convicted
  let governance := s.governance ++ governanceOf R result.effects
  { node := node
    governance := governance
    due := fun v => (s.dueWith result.validatorUpdates v).filter fun w =>
      !((s.landed R minVEffDelay chainId block).any fun change =>
        change.1 ∈ governance ∧ change.1.Touches v) &&
      if node.currentSet.contains v then s.node.currentSet.contains v else w = 0 }

def step (s : StagingRun) : StagingInput → StagingRun
  | .commit result block convicted => s.commit R minVEffDelay chainId result block convicted
  | .mintReconfig view => { s with node := (s.node.mintStagedReconfig minVEffDelay view).1 }
  | .mintEffects => { s with node := s.node.mintStagedEffects R }
  | .mintGovernance view =>
    { s with node := (s.node.mintStagedGovernanceReconfig minVEffDelay view).1 }

/-- The command brings the validator to the weight. -/
def Carries (cmd : ReconfigCommand) (current : ValidatorSet) (v : NodeId) (w : ℕ) : Prop :=
  v ∈ cmd.removes ∨ (∃ change ∈ cmd.changes, change.nodeId = v ∧ change.weight.toNat = w) ∨
    v ∉ cmd.changeIds ∧ current.weightFor v = some w

instance (cmd : ReconfigCommand) (current : ValidatorSet) (v : NodeId) (w : ℕ) :
    Decidable (Carries cmd current v w) :=
  inferInstanceAs (Decidable (_ ∨ (∃ change ∈ cmd.changes, _ ∧ _) ∨ _ ∧ _))

/-- A command that lands carries what is due to the seated validators, those aside that are jailed
or that governance changes with it. A governance command is staged when no other one is. -/
def Carried (s : StagingRun) : StagingInput → Prop
  | .commit result block convicted => ∀ change ∈ s.landed R minVEffDelay chainId block,
    ∀ v ∈ s.node.currentSet.members, ∀ w ∈ s.dueWith result.validatorUpdates v,
      v ∈ s.node.committedEvidence ++ convicted ∨
        change.1 ∈ s.governance ++ governanceOf R result.effects ∧ change.1.Touches v ∨
        Carries change.1 s.node.currentSet v w
  | .mintEffects =>
    let commands := s.node.stagedGovernanceReconfig.toList ++ governanceOf R s.node.stagedEffects
    ∀ cmd ∈ commands, ∀ cmd' ∈ commands, cmd = cmd'
  | _ => True

instance (s : StagingRun) : ∀ a, Decidable (s.Carried R minVEffDelay chainId a)
  | .commit result block _ =>
    inferInstanceAs (Decidable (∀ change ∈ s.landed R minVEffDelay chainId block,
      ∀ v ∈ s.node.currentSet.members, ∀ w ∈ s.dueWith result.validatorUpdates v, _))
  | .mintEffects => inferInstanceAs (Decidable (∀ cmd ∈ _ ++ _, ∀ cmd' ∈ _ ++ _, cmd = cmd'))
  | .mintReconfig _ | .mintGovernance _ => inferInstanceAs (Decidable True)

/-- What is due to a validator that is not jailed is its weight, or it is still staged. -/
def UpdatesKept (s : StagingRun) : Prop :=
  ∀ v w, s.due v = some w → v ∉ s.node.committedEvidence →
    s.node.currentSet.weightFor v = some w ∨
      w = 0 ∧ s.node.currentSet.contains v = false ∨
      lastUpdate s.node.stagedValidatorUpdates v = some w

/-- A staged governance command stays until it is applied or too late. -/
def GovernanceKept (s : StagingRun) : StagingInput → Prop
  | .commit result block convicted => ∀ cmd ∈ s.node.stagedGovernanceReconfig,
    (s.node.commitBlock R minVEffDelay chainId result block
        convicted).stagedGovernanceReconfig = some cmd ∨
      ∃ newSet, s.landed R minVEffDelay chainId block = some (cmd, newSet) ∧
        (s.node.node.applyReconfig cmd newSet).2 = true
  | .mintReconfig view => ∀ cmd ∈ s.node.stagedGovernanceReconfig,
    (s.node.mintStagedReconfig minVEffDelay view).1.stagedGovernanceReconfig = some cmd
  | .mintEffects => Along (stageEffect R)
    (fun staged effect => ∀ cmd ∈ staged, stageEffect R staged effect = some cmd)
    s.node.stagedGovernanceReconfig s.node.stagedEffects
  | .mintGovernance view => ∀ cmd ∈ s.node.stagedGovernanceReconfig,
    (s.node.mintStagedGovernanceReconfig minVEffDelay view).1.stagedGovernanceReconfig = some cmd ∨
      tooSoon minVEffDelay cmd view = true

end

end StagingRun

/-! ### What minting clears -/

theorem lastUpdate_append_updates (updates updates' : List ValidatorUpdate) (v : NodeId) :
    lastUpdate (updates ++ updates') v = (lastUpdate updates' v).or (lastUpdate updates v) := by
  unfold lastUpdate
  rw [List.filter_append, List.getLast?_append, Option.map_or]

theorem mem_of_lastUpdate {updates : List ValidatorUpdate} {v : NodeId} {w : ℕ}
    (h : lastUpdate updates v = some w) : ∃ u ∈ updates, u.nodeId = v ∧ u.weight = w := by
  obtain ⟨u, hu, hw⟩ := Option.map_eq_some_iff.mp h
  have hmem := List.mem_filter.mp (List.mem_of_getLast? hu)
  exact ⟨u, hmem.1, of_decide_eq_true hmem.2, hw⟩

/-- No command is built only when no update is for a seated validator. -/
theorem not_seated_of_stagedUpdates {updates : List ValidatorUpdate} {current : ValidatorSet}
    {vEff : ℕ} (h : stagedUpdatesToReconfig updates current vEff = none) {v : NodeId} {w : ℕ}
    (hw : lastUpdate updates v = some w) : current.contains v = false := by
  by_contra hseated
  rw [Bool.not_eq_false] at hseated
  unfold stagedUpdatesToReconfig at h
  simp only at h
  split_ifs at h with hempty
  have htarget : (v, w) ∈ Table.toList
      (updates.foldl (fun t u => t.insert u.nodeId u.weight) (∅ : Table NodeId ℕ)) := by
    rw [Table.mem_toList, get?_reconcile, hw]
    rfl
  have hfiltered := List.mem_filter (p := fun e : NodeId × ℕ => current.contains e.1).mpr
    ⟨htarget, hseated⟩
  have hsorted := (List.mem_insertionSort fun a b : NodeId × ℕ => a.1 ≤ b.1).mpr hfiltered
  have hremoves := List.filter_eq_nil_iff.mp (List.map_eq_nil_iff.mp hempty.1) _ hsorted
  have hchanges := List.filter_eq_nil_iff.mp (List.map_eq_nil_iff.mp hempty.2) _ hsorted
  by_cases hzero : w = 0
  · exact hremoves (decide_eq_true hzero)
  · exact hchanges (decide_eq_true hzero)

namespace StagingNode

theorem lastUpdate_jailRemoves {s : StagingNode} {v : NodeId} (h : v ∉ s.committedEvidence)
    (current : ValidatorSet) : lastUpdate (s.jailRemoves current) v = none := by
  cases hw : lastUpdate (s.jailRemoves current) v with
  | none => rfl
  | some w =>
    obtain ⟨u, hu, rfl, -⟩ := mem_of_lastUpdate hw
    obtain ⟨v, hv, rfl⟩ := List.mem_map.mp hu
    have hjailed := (List.mem_insertionSort _).mp (List.mem_of_mem_take hv)
    exact absurd (List.mem_filter.mp (List.mem_dedup.mp hjailed)).1 h

theorem setAt_of_not_boundaryAhead {s : StagingNode} {view : ℕ}
    (h : ¬s.boundaryAhead view = true) : s.node.validatorHistory.setAt view = s.currentSet := by
  apply ValidatorSetHistory.setAt_of_last_le
  have hmem : (s.node.validatorHistory.last.vEff, s.node.validatorHistory.last.set) ∈
      s.node.validatorHistory.iter :=
    List.mem_map_of_mem (List.getLast_mem s.node.validatorHistory.boundaries_ne_nil)
  by_contra hlt
  refine h (List.any_eq_true.mpr ⟨_, hmem, ?_⟩)
  simp only [Bool.and_eq_true, decide_eq_true_eq]
  exact ⟨by simp; omega, by omega⟩

/-- Minting clears the stage only of validators that are not seated. -/
theorem mintStagedReconfig_cases (s : StagingNode) (minVEffDelay view : ℕ) :
    (s.mintStagedReconfig minVEffDelay view).1 = s ∨
      (s.mintStagedReconfig minVEffDelay view).1 = { s with stagedValidatorUpdates := [] } ∧
        ∀ v w, v ∉ s.committedEvidence → lastUpdate s.stagedValidatorUpdates v = some w →
          s.currentSet.contains v = false := by
  unfold mintStagedReconfig
  simp only
  split_ifs with hempty hahead
  · exact .inl rfl
  · exact .inl rfl
  · cases checkedAddU64 view (max (max minVEffDelay delayFloor) appReconfigSettleViews) with
    | none => exact .inl rfl
    | some vEff =>
      simp only
      cases hcmd : stagedUpdatesToReconfig (s.stagedValidatorUpdates ++
          s.jailRemoves (s.node.validatorHistory.setAt view))
          (s.node.validatorHistory.setAt view) vEff with
      | some cmd => exact .inl rfl
      | none =>
        refine .inr ⟨rfl, fun v w hv hw => ?_⟩
        rw [← setAt_of_not_boundaryAhead hahead]
        refine not_seated_of_stagedUpdates hcmd (v := v) (w := w) ?_
        rw [lastUpdate_append_updates, lastUpdate_jailRemoves hv, hw]
        rfl

end StagingNode

namespace StagingRun
variable {R : ReconfigPrimitives} {minVEffDelay : ℕ} {chainId : ChainId} {s : StagingRun}

/-- Only the weight zero is due to a validator that is not seated. -/
def DueSeated (s : StagingRun) : Prop :=
  ∀ v w, s.due v = some w → s.node.currentSet.contains v = true ∨ w = 0

/-- What a weight that is due after a commit says of the commit. -/
theorem due_commit {result : CommitResult} {block : Block} {convicted : List ValidatorId}
    {v : NodeId} {w : ℕ}
    (h : (s.commit R minVEffDelay chainId result block convicted).due v = some w) :
    s.dueWith result.validatorUpdates v = some w ∧
      (∀ change ∈ s.landed R minVEffDelay chainId block,
        ¬(change.1 ∈ s.governance ++ governanceOf R result.effects ∧ change.1.Touches v)) ∧
      if (s.commit R minVEffDelay chainId result block convicted).node.currentSet.contains v
      then s.node.currentSet.contains v = true else w = 0 := by
  obtain ⟨hdue, hkeep⟩ := Option.filter_eq_some_iff.mp h
  rw [Bool.and_eq_true, Bool.not_eq_true', ← Bool.not_eq_true, Option.any_eq_true] at hkeep
  refine ⟨hdue, fun change hchange htouched => ?_, ?_⟩
  · exact hkeep.1 ⟨change, hchange, decide_eq_true htouched⟩
  · have hseat : (if (s.commit R minVEffDelay chainId result block
        convicted).node.currentSet.contains v then s.node.currentSet.contains v
        else decide (w = 0)) = true := hkeep.2
    split_ifs at hseat ⊢ with hafter
    · exact hseat
    · exact of_decide_eq_true hseat

theorem dueSeated_commit (result : CommitResult) (block : Block) (convicted : List ValidatorId) :
    (s.commit R minVEffDelay chainId result block convicted).DueSeated := by
  intro v w hw
  have hseat := (due_commit hw).2.2
  split_ifs at hseat with hafter
  · exact .inl hafter
  · exact .inr hseat

/-- Staging the updates of a block keeps what is due. -/
theorem updatesKept_of_none {result : CommitResult} {block : Block}
    (hnone : s.landed R minVEffDelay chainId block = none) (hkept : s.UpdatesKept)
    (convicted : List ValidatorId) :
    (s.commit R minVEffDelay chainId result block convicted).UpdatesKept := by
  intro v w hw hunjailed
  obtain ⟨hdue, -, -⟩ := due_commit hw
  change v ∉ (s.node.commitBlock R minVEffDelay chainId result block convicted).committedEvidence
    at hunjailed
  rw [committedEvidence_commitBlock, List.mem_append, not_or] at hunjailed
  have hnode : (s.commit R minVEffDelay chainId result block convicted).node = _ :=
    commitBlock_of_none hnone result convicted
  rw [hnode]
  simp only [lastUpdate_append_updates]
  unfold dueWith at hdue
  cases hupdate : lastUpdate result.validatorUpdates v with
  | none =>
    rw [hupdate] at hdue
    exact hkept v w hdue hunjailed.1
  | some w' =>
    rw [hupdate] at hdue
    split_ifs at hdue
    exact .inr (.inr hdue)

/-- A command that carries what is due to a validator that stays brings it to that weight. -/
theorem weightFor_of_carries {cmd : ReconfigCommand} {current newSet : ValidatorSet}
    (hformed : cmd.WellFormed current)
    (hset : ValidatorSet.withWeights (cmd.nextMembers current) = .ok newSet) {v : NodeId} {w : ℕ}
    (h : Carries cmd current v w) (hstays : newSet.contains v = true) :
    newSet.weightFor v = some w := by
  rcases h with hremoved | ⟨change, hchange, rfl, rfl⟩ | ⟨hchange, hweight⟩
  · rw [hformed.removed hset hremoved] at hstays
    cases hstays
  · exact hformed.changed hset hchange
  · by_cases hremoved : v ∈ cmd.removes
    · rw [hformed.removed hset hremoved] at hstays
      cases hstays
    · exact hformed.untouched hset hremoved hchange hweight

theorem updatesKept_of_some {result : CommitResult} {block : Block}
    {convicted : List ValidatorId} {cmd : ReconfigCommand} {newSet : ValidatorSet}
    (hlanded : s.landed R minVEffDelay chainId block = some (cmd, newSet))
    (hcarried : s.Carried R minVEffDelay chainId (.commit result block convicted)) :
    (s.commit R minVEffDelay chainId result block convicted).UpdatesKept := by
  intro v w hw hunjailed
  obtain ⟨hdue, huntouched, hseat⟩ := due_commit hw
  change v ∉ (s.node.commitBlock R minVEffDelay chainId result block convicted).committedEvidence
    at hunjailed
  rw [committedEvidence_commitBlock] at hunjailed
  split_ifs at hseat with hafter
  · have hset : (s.commit R minVEffDelay chainId result block convicted).node.currentSet = newSet :=
      currentSet_commitBlock hlanded result convicted
    rw [hset] at hafter ⊢
    obtain ⟨hformed, hnew⟩ := wellFormed_of_blockChange hlanded
    have hmember := (s.node.currentSet.contains_iff v).mp hseat
    rcases hcarried _ hlanded v hmember w hdue with hjailed | htouched | hcarries
    · exact absurd hjailed hunjailed
    · exact absurd htouched (huntouched _ hlanded)
    · exact .inl (weightFor_of_carries hformed hnew hcarries hafter)
  · exact .inr (.inl ⟨hseat, Bool.not_eq_true _ ▸ hafter⟩)

/-- Minting keeps what is due. -/
theorem updatesKept_mint (hkept : s.UpdatesKept) (hseated : s.DueSeated) (minVEffDelay view : ℕ) :
    UpdatesKept { s with node := (s.node.mintStagedReconfig minVEffDelay view).1 } ∧
      DueSeated { s with node := (s.node.mintStagedReconfig minVEffDelay view).1 } := by
  rcases s.node.mintStagedReconfig_cases minVEffDelay view with hsame | ⟨hcleared, habsent⟩
  · rw [hsame]
    exact ⟨hkept, hseated⟩
  · rw [hcleared]
    refine ⟨fun v w hw hunjailed => ?_, hseated⟩
    rcases hkept v w hw hunjailed with hweight | hgone | hstaged
    · exact .inl hweight
    · exact .inr (.inl hgone)
    · have hout := habsent v w hunjailed hstaged
      rcases hseated v w hw with hin | hzero
      · exact absurd (hout.symm.trans hin) Bool.false_ne_true
      · exact .inr (.inl ⟨hzero, hout⟩)

theorem stageEffect_eq (R : ReconfigPrimitives) (staged : Option ReconfigCommand)
    (effect : ValidatorEffect) :
    stageEffect R staged effect = (stageEffect R none effect).or staged := by
  cases effect with
  | reconfig bytes =>
    simp only [stageEffect]
    cases ReconfigCommand.decode R bytes <;> rfl
  | keyRotation _ => rfl
  | endpointUpdate _ => rfl
  | paramUpdate _ => rfl

/-- Equal commands replace each other unnoticed. -/
theorem along_stageEffect {effects : List ValidatorEffect} {staged : Option ReconfigCommand}
    (h : ∀ cmd ∈ staged.toList ++ governanceOf R effects,
      ∀ cmd' ∈ staged.toList ++ governanceOf R effects, cmd = cmd') :
    Along (stageEffect R)
      (fun staged effect => ∀ cmd ∈ staged, stageEffect R staged effect = some cmd)
      staged effects := by
  induction effects generalizing staged with
  | nil => trivial
  | cons effect effects ih =>
    cases hstage : stageEffect R none effect with
    | none =>
      have hstay : stageEffect R staged effect = staged := by rw [stageEffect_eq, hstage]; rfl
      have htail : governanceOf R (effect :: effects) = governanceOf R effects := by
        rw [governanceOf, List.filterMap_cons_none hstage]
        rfl
      rw [htail] at h
      refine ⟨fun cmd hcmd => hstay.trans hcmd, ?_⟩
      rw [hstay]
      exact ih h
    | some next =>
      have hnext : stageEffect R staged effect = some next := by rw [stageEffect_eq, hstage]; rfl
      have htail : governanceOf R (effect :: effects) = next :: governanceOf R effects := by
        rw [governanceOf, List.filterMap_cons_some hstage]
        rfl
      rw [htail] at h
      refine ⟨fun cmd hcmd => ?_, ?_⟩
      · rw [hnext, h cmd (List.mem_append_left _ (Option.mem_toList.mpr hcmd)) next (by simp)]
      · rw [hnext]
        refine ih fun cmd hcmd cmd' hcmd' => ?_
        exact h cmd (List.mem_append_right _ hcmd) cmd' (List.mem_append_right _ hcmd')

/-- A governance command is replaced only by another one. -/
theorem governanceKept_of_carried {a : StagingInput} (h : s.Carried R minVEffDelay chainId a) :
    s.GovernanceKept R minVEffDelay chainId a := by
  cases a with
  | commit result block convicted =>
    intro cmd hcmd
    cases hlanded : blockChange R minVEffDelay chainId s.node.node.validatorHistory block with
    | none =>
      rw [commitBlock_of_none hlanded]
      exact .inl hcmd
    | some change =>
      obtain ⟨landed, newSet⟩ := change
      rw [commitBlock_of_some hlanded]
      by_cases hclear : (s.node.node.applyReconfig landed newSet).2 = true ∧
          s.node.stagedGovernanceReconfig = some landed
      · have hsame : cmd = landed := Option.some.inj ((Option.mem_def.mp hcmd).symm.trans hclear.2)
        exact .inr ⟨newSet, hsame ▸ hlanded, hsame ▸ hclear.1⟩
      · simp only [if_neg hclear]
        exact .inl hcmd
  | mintReconfig view =>
    intro cmd hcmd
    rcases s.node.mintStagedReconfig_cases minVEffDelay view with hsame | ⟨hcleared, -⟩
    · rw [hsame]
      exact hcmd
    · rw [hcleared]
      exact hcmd
  | mintEffects => exact along_stageEffect h
  | mintGovernance view =>
    intro cmd hcmd
    unfold mintStagedGovernanceReconfig
    rw [Option.mem_def.mp hcmd]
    simp only
    split_ifs with hsoon hahead
    · exact .inr hsoon
    · exact .inl hcmd
    · exact .inl hcmd

theorem kept_step {a : StagingInput} (h : s.Carried R minVEffDelay chainId a)
    (hkept : s.UpdatesKept) (hseated : s.DueSeated) :
    (s.step R minVEffDelay chainId a).UpdatesKept ∧
      (s.step R minVEffDelay chainId a).DueSeated := by
  cases a with
  | commit result block convicted =>
    refine ⟨?_, dueSeated_commit result block convicted⟩
    cases hlanded : s.landed R minVEffDelay chainId block with
    | none => exact updatesKept_of_none hlanded hkept convicted
    | some change => exact updatesKept_of_some hlanded h
  | mintReconfig view => exact updatesKept_mint hkept hseated minVEffDelay view
  | mintEffects => exact ⟨hkept, hseated⟩
  | mintGovernance view =>
    have hsame : ∀ {s' : StagingNode},
        s' = s.node ∨ s' = { s.node with stagedGovernanceReconfig := none } →
        UpdatesKept { s with node := s' } ∧ DueSeated { s with node := s' } := by
      rintro s' (rfl | rfl) <;> exact ⟨hkept, hseated⟩
    apply hsame
    unfold mintStagedGovernanceReconfig
    cases s.node.stagedGovernanceReconfig with
    | none => exact .inl rfl
    | some cmd =>
      simp only
      split_ifs
      · exact .inr rfl
      · exact .inl rfl
      · exact .inl rfl

/-- As long as the commands that land carry what is due, no update and no governance command is
lost. -/
theorem updates_kept (R : ReconfigPrimitives) (minVEffDelay : ℕ) (chainId : ChainId)
    (node : ConsensusNode) (inputs : List StagingInput)
    (h : Along (step R minVEffDelay chainId) (Carried R minVEffDelay chainId) (start node) inputs) :
    Along (step R minVEffDelay chainId)
      (fun s a => (s.step R minVEffDelay chainId a).UpdatesKept ∧
        s.GovernanceKept R minVEffDelay chainId a) (start node) inputs := by
  refine h.imp_of_invariant (I := fun s => s.UpdatesKept ∧ s.DueSeated) (fun s a ha hs => ?_) ?_
  · have hstep := kept_step ha hs.1 hs.2
    exact ⟨hstep, hstep.1, governanceKept_of_carried ha⟩
  · exact ⟨nofun, nofun⟩

end StagingRun

namespace Sample
open StagingRun

def stagingStep : StagingRun → StagingInput → StagingRun :=
  step allChanges.toReconfigPrimitives config.minVEffDelay (config.chainId timed)

/-- A command that changes the weight of a validator at view 18. -/
def reweighing (id weight : UInt8) : Bytes := reconfigTag ++ [3, id, weight, 18]

def staging (updates : List ValidatorUpdate) (effects : List Bytes) (commands : List Bytes)
    (view : ℕ) : StagingInput :=
  .commit ⟨updates, effects.map .reconfig⟩ (blockOn root view 0 commands) []

/-- The update of a validator is staged, minted and lands while a governance command waits. -/
def orderly : List StagingInput :=
  [staging [⟨1, 5⟩] [reweighing 2 6] [] 10, .mintReconfig 10, .mintEffects, .mintGovernance 10,
    staging [] [] [reweighing 1 5] 11]

theorem orderly_kept : ∃ n ∈ recover timed config .empty,
    (run stagingStep (start n) orderly).due 1 = some 5 ∧
      Along stagingStep
        (fun s a => (stagingStep s a).UpdatesKept ∧ s.GovernanceKept
          allChanges.toReconfigPrimitives config.minVEffDelay (config.chainId timed) a)
        (start n) orderly := by
  obtain ⟨n, hn, hdue, hcarried⟩ : ∃ n ∈ recover timed config .empty,
      (run stagingStep (start n) orderly).due 1 = some 5 ∧
        Along stagingStep (Carried allChanges.toReconfigPrimitives config.minVEffDelay
          (config.chainId timed)) (start n) orderly := by
    decide +kernel
  exact ⟨n, hn, hdue, updates_kept _ _ _ n orderly hcarried⟩

/-- The block with the minted command brings an update of validator 2. -/
def withNewUpdate : List StagingInput :=
  [staging [⟨1, 5⟩] [] [] 10, .mintReconfig 10, staging [⟨2, 7⟩] [] [reweighing 1 5] 11]

/-- Governance approves a second command before the first one has landed. -/
def superseded : List StagingInput :=
  [staging [] [reweighing 2 6, reweighing 3 6] [] 10, .mintEffects]

/-- The command for validator 1 clears the update of validator 2, and the second governance command
takes the place of the first one. -/
theorem update_swallowed : ∃ n ∈ recover timed config .empty,
    ¬ Along stagingStep (fun s a => (stagingStep s a).UpdatesKept) (start n) withNewUpdate ∧
      ¬ Along stagingStep (fun s a => s.GovernanceKept allChanges.toReconfigPrimitives
        config.minVEffDelay (config.chainId timed) a) (start n) superseded := by
  obtain ⟨n, hn, hdue, hunjailed, hweight, hstaged, hheld⟩ : ∃ n ∈ recover timed config .empty,
      (run stagingStep (start n) withNewUpdate).due 2 = some 7 ∧
      2 ∉ (run stagingStep (start n) withNewUpdate).node.committedEvidence ∧
      (run stagingStep (start n) withNewUpdate).node.currentSet.weightFor 2 = some 1 ∧
      (run stagingStep (start n) withNewUpdate).node.stagedValidatorUpdates = [] ∧
      (run stagingStep (start n) (superseded.take 1)).node.stagedEffects =
        [.reconfig (reweighing 2 6), .reconfig (reweighing 3 6)] := by
    decide +kernel
  refine ⟨n, hn, fun h => ?_, fun h => ?_⟩
  · rcases h.2.2.1 2 7 hdue hunjailed with hkept | ⟨hzero, -⟩ | hkept
    · cases hweight.symm.trans hkept
    · cases hzero
    · change lastUpdate (run stagingStep (start n) withNewUpdate).node.stagedValidatorUpdates 2 = _
        at hkept
      rw [hstaged] at hkept
      cases hkept
  · have hfirst : Along (stageEffect allChanges.toReconfigPrimitives)
        (fun staged effect => ∀ cmd ∈ staged,
          stageEffect allChanges.toReconfigPrimitives staged effect = some cmd)
        (run stagingStep (start n) (superseded.take 1)).node.stagedGovernanceReconfig
        (run stagingStep (start n) (superseded.take 1)).node.stagedEffects := h.2.1
    rw [hheld] at hfirst
    have hsecond := hfirst.2.1 ⟨[], [], [⟨2, 6⟩], 18⟩ rfl
    cases hsecond

end Sample

end Boule
