import Boule.Node.Divergence
import Boule.Reth.SameStake

/-! A node whose execution layer lags, next to one whose execution layer never does. -/
namespace Boule

/-- The blocks all carry a payload, and reth numbers them from a base on. It returns the logs of a
block whenever it is asked. -/
structure Numbered (logsAt : ℕ → List Log) (base : ℕ) (c : CommittedChain) : Prop where
  payload : ∀ b ∈ c.blocks, ∃ payload, b.payload = some payload ∧
    payload.blockNumber = some (base + b.height) ∧ payload.logs = logsAt (base + b.height)
  bound : base + c.blocks.length < 2 ^ 64

inductive LagInput where
  | commit (answer : ElAnswer)
  | replay (minGap : ℕ) (elHead : Option ℕ) (answers : ℕ → ElAnswer)

/-- No log concerns the validators. -/
def Quiet (logs : List Log) : Prop := StakeQuiet logs ∧ derivePredeployEffects logs = []

instance : DecidablePred StakeQuiet := fun _ => inferInstanceAs (Decidable (_ ∧ _))

instance : DecidablePred Quiet := fun _ => inferInstanceAs (Decidable (_ ∧ _))

/-- The ledgers are compared as maps. -/
structure SameEffects (n n' : ElNode) : Prop where
  updates : n.stagedValidatorUpdates = n'.stagedValidatorUpdates
  effects : n.stagedEffects = n'.stagedEffects
  stake : ∀ v, n.app.stakeSource.stakeOf v = n'.app.stakeSource.stakeOf v
  queue : ∀ v, n.app.stakeSource.queueOf v = n'.app.stakeSource.queueOf v
  currentHeight : n.app.stakeSource.currentHeight = n'.app.stakeSource.currentHeight
  pending : n.app.stakeSource.pending = n'.app.stakeSource.pending

section
variable (logsAt : ℕ → List Log) (window : ℕ) (genesis : List (NodeId × ℕ))
  (genesisRoot : Bytes32) (c : CommittedChain)

def lagStep (n : ElNode) : LagInput → ElNode
  | .commit answer => RootSystem.commitNext logsAt window c n answer
  | .replay minGap elHead answers => n.elCatchupReplay logsAt minGap elHead answers

/-- The node after so many blocks, each of them executed at once. -/
def alwaysValid (k : ℕ) : ElNode :=
  run (lagStep logsAt window c) (.start (.start genesis genesisRoot))
    (List.replicate k (.commit .valid))

/-- Evidence is committed only with a block that is executed at once. What a replay executes has
no effect on the validators, and no slash waits in the ledger. -/
def NothingMissed (n : ElNode) : LagInput → Prop
  | .commit answer => answer ≠ .valid →
    ∀ b ∈ c.blocks[n.lastCommittedHeight]?, b.offenders = []
  | .replay minGap elHead answers =>
    (∃ b ∈ n.replayed minGap elHead, answers b.height = .valid) →
      n.app.stakeSource.pending = [] ∧
        ∀ b ∈ c.blocks, n.elFrontier elHead < b.height → b.height ≤ n.lastCommittedHeight →
          Quiet b.logs

instance NothingMissed.decidable : ∀ n input, Decidable (NothingMissed c n input)
  | n, .commit _ => inferInstanceAs (Decidable (_ → ∀ b ∈ c.blocks[n.lastCommittedHeight]?, _))
  | n, .replay minGap elHead _ => inferInstanceAs (Decidable
      ((∃ b ∈ n.replayed minGap elHead, _) → _ ∧ ∀ b ∈ c.blocks, _ → _ → Quiet b.logs))

/-! ### Commits of executed blocks -/

/-- The ledger after the logs of the blocks at these heights. -/
def absorbAll (base : ℕ) (l : BondedStakeLedger) (heights : List ℕ) : BondedStakeLedger :=
  heights.foldl (fun l h => l.absorb h (logsAt (base + h))) l

def effectsOf (base : ℕ) (heights : List ℕ) : List ValidatorEffect :=
  heights.flatMap fun h => derivePredeployEffects (logsAt (base + h))

/-- What a block executes when the last executed one is at the height `frontier`. -/
def executes (frontier height : ℕ) : List ℕ :=
  List.range' (frontier + 1) (height - (frontier + 1)) ++ [height]

variable {logsAt window genesis genesisRoot c} {base : ℕ}

theorem subU64_of_le {height h : ℕ} (hle : h ≤ height) (hbound : base + height < 2 ^ 64) :
    subU64 (base + height) (height - h) = base + h := by
  unfold subU64
  omega

theorem backfillGap_eq {height : ℕ} (hbound : base + height < 2 ^ 64) {heights : List ℕ}
    (hle : ∀ h ∈ heights, h ≤ height) (l : BondedStakeLedger) :
    RethApplication.backfillGap logsAt (base + height) height heights l =
      (absorbAll logsAt base l heights, effectsOf logsAt base heights) := by
  have hloop : ∀ effects : List ValidatorEffect, heights.foldl (fun r h =>
      let evmNumber := subU64 (base + height) (height - h)
      (r.1.absorb h (logsAt evmNumber), r.2 ++ derivePredeployEffects (logsAt evmNumber)))
        (l, effects) =
      (absorbAll logsAt base l heights, effects ++ effectsOf logsAt base heights) := by
    induction heights generalizing l with
    | nil => simp [absorbAll, effectsOf]
    | cons h heights ih =>
      intro effects
      have hnumber := subU64_of_le (hle h (List.mem_cons_self ..)) hbound
      rw [List.foldl_cons, hnumber, ih (fun h hh => hle h (List.mem_cons_of_mem _ hh))]
      simp [absorbAll, effectsOf]
  exact hloop []

theorem Numbered.height_le (hc : Numbered logsAt base c) {b : RethBlock} (hb : b ∈ c.blocks) :
    base + b.height < 2 ^ 64 := by
  obtain ⟨k, hk, hget⟩ := List.mem_iff_getElem.mp hb
  have hheight := c.height k b (by rw [List.getElem?_eq_getElem hk, hget])
  have hbound := hc.bound
  omega

theorem Numbered.logs_eq (hc : Numbered logsAt base c) {b : RethBlock} (hb : b ∈ c.blocks) :
    b.logs = logsAt (base + b.height) := by
  obtain ⟨payload, hp, -, hlogs⟩ := hc.payload b hb
  rw [RethBlock.logs, hp]
  exact hlogs

theorem absorbAll_append (l : BondedStakeLedger) (heights heights' : List ℕ) :
    absorbAll logsAt base l (heights ++ heights') =
      absorbAll logsAt base (absorbAll logsAt base l heights) heights' := List.foldl_append

theorem effectsOf_append (heights heights' : List ℕ) :
    effectsOf logsAt base (heights ++ heights') =
      effectsOf logsAt base heights ++ effectsOf logsAt base heights' := List.flatMap_append

/-- The gap and the block itself are absorbed alike. -/
theorem commit_valid (hc : Numbered logsAt base c) (a : RethApplication) {b : RethBlock}
    (hb : b ∈ c.blocks) :
    let heights := executes a.committed.height b.height
    let l := absorbAll logsAt base a.stakeSource heights
    ∃ a', a.commit logsAt b .valid = (a', some ⟨l.pending, effectsOf logsAt base heights⟩) ∧
      a'.committed.height = b.height ∧ a'.stakeSource = l.takeUpdates.1 ∧
      a'.pendingWeights =
        RethApplication.reconcilePendingWeights a.pendingWeights b.weights l.pending := by
  obtain ⟨payload, hp, hnumber, hlogs⟩ := hc.payload b hb
  have hbound := hc.height_le hb
  have hgap : RethApplication.backfillSelfSyncedGap logsAt a.stakeSource payload.blockNumber
      a.committed.height b.height =
        (absorbAll logsAt base a.stakeSource (List.range' (a.committed.height + 1)
            (b.height - (a.committed.height + 1))),
          effectsOf logsAt base (List.range' (a.committed.height + 1)
            (b.height - (a.committed.height + 1)))) := by
    unfold RethApplication.backfillSelfSyncedGap
    rw [hnumber]
    split_ifs with hsmall
    · rw [Nat.sub_eq_zero_of_le hsmall]
      rfl
    · refine backfillGap_eq hbound (fun h hh => ?_) a.stakeSource
      have hrange := List.mem_range'_1.mp hh
      omega
  have hown : effectsOf logsAt base [b.height] =
      derivePredeployEffects (logsAt (base + b.height)) := List.flatMap_singleton ..
  simp only [RethApplication.commit, hp, hgap, executes, absorbAll_append, effectsOf_append, hlogs,
    hown, RethBlock.weights]
  exact ⟨_, rfl, rfl, rfl, rfl⟩

variable (logsAt) in
theorem commit_not_valid (a : RethApplication) (b : RethBlock) {answer : ElAnswer}
    (h : answer ≠ .valid) : (a.commit logsAt b answer).1 = a ∧
      ∀ result ∈ (a.commit logsAt b answer).2, result = ⟨[], []⟩ := by
  unfold RethApplication.commit
  cases b.payload with
  | none => simp
  | some payload =>
    cases answer with
    | failed => simp
    | syncing => simp
    | valid => exact absurd rfl h

/-- The ledger and the staged lists of a node that executes every block when it commits it. -/
structure AlwaysExecutes (c : CommittedChain) (r : ℕ → ElNode) : Prop where
  start : (r 0).app.stakeSource.currentHeight = 0
  stakeSource : ∀ (k : ℕ) b, c.blocks[k]? = some b → (r (k + 1)).app.stakeSource =
    b.offenders.foldl .slash ((r k).app.stakeSource.absorb b.height b.logs).takeUpdates.1
  updates : ∀ (k : ℕ) b, c.blocks[k]? = some b → (r (k + 1)).stagedValidatorUpdates =
    (r k).stagedValidatorUpdates ++ ((r k).app.stakeSource.absorb b.height b.logs).pending
  effects : ∀ (k : ℕ) b, c.blocks[k]? = some b → (r (k + 1)).stagedEffects =
    (r k).stagedEffects ++ derivePredeployEffects b.logs
  pendingWeights : ∀ (k : ℕ) b, c.blocks[k]? = some b → (r (k + 1)).app.pendingWeights =
    RethApplication.reconcilePendingWeights (r k).app.pendingWeights b.weights
      ((r k).app.stakeSource.absorb b.height b.logs).pending

variable (window) in
theorem commitBlock_valid (hc : Numbered logsAt base c) (n : ElNode) {b : RethBlock}
    (hb : b ∈ c.blocks) :
    let heights := executes n.app.committed.height b.height
    let l := absorbAll logsAt base n.app.stakeSource heights
    let n' := n.commitBlock logsAt window b .valid
    n'.app.committed.height = b.height ∧
      n'.app.stakeSource = b.offenders.foldl .slash l.takeUpdates.1 ∧
      n'.lastCommittedHeight = max n.lastCommittedHeight b.height ∧
      n'.stagedValidatorUpdates = n.stagedValidatorUpdates ++ l.pending ∧
      n'.stagedEffects = n.stagedEffects ++ effectsOf logsAt base heights ∧
      n'.app.pendingWeights =
        RethApplication.reconcilePendingWeights n.app.pendingWeights b.weights l.pending := by
  obtain ⟨a', hcommit, hheight, hstake, hweights⟩ := commit_valid hc n.app hb
  simp only [ElNode.commitBlock, hcommit, ElNode.applyCommit, ElNode.stageAppValidatorUpdates,
    RethApplication.committed_slashes, RethApplication.stakeSource_slashes,
    RethApplication.pendingWeights_slashes, hheight, hstake, hweights, and_self]

theorem alwaysValid_succ {k : ℕ} {b : RethBlock} (hb : c.blocks[k]? = some b)
    (hk : (alwaysValid logsAt window genesis genesisRoot c k).lastCommittedHeight = k) :
    alwaysValid logsAt window genesis genesisRoot c (k + 1) =
      (alwaysValid logsAt window genesis genesisRoot c k).commitBlock logsAt window b .valid := by
  conv_lhs => rw [alwaysValid, List.replicate_succ', run_append]
  simp only [run_cons, run_nil, lagStep, RootSystem.commitNext]
  rw [← alwaysValid, hk, hb]

theorem executes_succ (k : ℕ) : executes k (k + 1) = [k + 1] := by
  simp [executes]

variable (window genesis genesisRoot) in
theorem alwaysValid_height (hc : Numbered logsAt base c) {k : ℕ} (hk : k ≤ c.blocks.length) :
    let r := alwaysValid logsAt window genesis genesisRoot c k
    r.lastCommittedHeight = k ∧ r.app.committed.height = k := by
  induction k with
  | zero => exact ⟨rfl, rfl⟩
  | succ k ih =>
    obtain ⟨hlast, hfrontier⟩ := ih (by omega)
    have hget := List.getElem?_eq_getElem (show k < c.blocks.length by omega)
    obtain ⟨hheight, -, hmax, -⟩ := commitBlock_valid window hc
      (alwaysValid logsAt window genesis genesisRoot c k) (List.mem_of_getElem? hget)
    simp only
    rw [alwaysValid_succ hget hlast, hheight, hmax, hlast, c.height k _ hget]
    exact ⟨max_eq_right (by omega), rfl⟩

variable (window genesis genesisRoot) in
theorem alwaysValid_executes (hc : Numbered logsAt base c) :
    AlwaysExecutes c (alwaysValid logsAt window genesis genesisRoot c) := by
  have hstep : ∀ (k : ℕ) b, c.blocks[k]? = some b →
      let r := alwaysValid logsAt window genesis genesisRoot c
      (r (k + 1)).app.stakeSource =
        b.offenders.foldl .slash ((r k).app.stakeSource.absorb b.height b.logs).takeUpdates.1 ∧
      (r (k + 1)).stagedValidatorUpdates =
        (r k).stagedValidatorUpdates ++ ((r k).app.stakeSource.absorb b.height b.logs).pending ∧
      (r (k + 1)).stagedEffects = (r k).stagedEffects ++ derivePredeployEffects b.logs ∧
      (r (k + 1)).app.pendingWeights =
        RethApplication.reconcilePendingWeights (r k).app.pendingWeights b.weights
          ((r k).app.stakeSource.absorb b.height b.logs).pending := by
    intro k b hb
    have hlen := (List.getElem?_eq_some_iff.mp hb).1
    obtain ⟨hlast, hfrontier⟩ := alwaysValid_height window genesis genesisRoot hc hlen.le
    obtain ⟨-, hstake, -, hupdates, heffects, hweights⟩ := commitBlock_valid window hc
      (alwaysValid logsAt window genesis genesisRoot c k) (List.mem_of_getElem? hb)
    have hown : effectsOf logsAt base [b.height] = derivePredeployEffects b.logs := by
      rw [hc.logs_eq (List.mem_of_getElem? hb)]
      exact List.flatMap_singleton ..
    have hexecutes :
        executes (alwaysValid logsAt window genesis genesisRoot c k).app.committed.height b.height =
          [b.height] := by
      rw [hfrontier, c.height k b hb, executes_succ]
    rw [hexecutes] at hstake hupdates heffects hweights
    simp only
    rw [alwaysValid_succ hb hlast, hstake, hupdates, heffects, hweights, hown,
      hc.logs_eq (List.mem_of_getElem? hb)]
    exact ⟨rfl, rfl, rfl, rfl⟩
  exact ⟨rfl, fun k b hb => (hstep k b hb).1, fun k b hb => (hstep k b hb).2.1,
    fun k b hb => (hstep k b hb).2.2.1, fun k b hb => (hstep k b hb).2.2.2⟩

/-! ### Blocks without effects, and blocks that are caught up with -/

variable (base) in
theorem pending_absorbAll {heights : List ℕ}
    (hquiet : ∀ h ∈ heights, StakeQuiet (logsAt (base + h))) (l : BondedStakeLedger) :
    (absorbAll logsAt base l heights).pending = l.pending := by
  induction heights generalizing l with
  | nil => rfl
  | cons h heights ih =>
    have hrest := ih (fun h hh => hquiet h (List.mem_cons_of_mem _ hh))
      (l.absorb h (logsAt (base + h)))
    rw [l.absorb_of_quiet (hquiet h (List.mem_cons_self ..))] at hrest
    rw [absorbAll, List.foldl_cons, l.absorb_of_quiet (hquiet h (List.mem_cons_self ..))]
    exact hrest

theorem effectsOf_quiet {heights : List ℕ}
    (hquiet : ∀ h ∈ heights, Quiet (logsAt (base + h))) :
    effectsOf logsAt base heights = [] :=
  List.flatMap_eq_nil_iff.mpr fun h hh => (hquiet h hh).2

theorem SameStake.absorbAll_quiet {taken taken' : List ValidatorUpdate} {l l' : BondedStakeLedger}
    (h : SameStake taken l taken' l') {m : ℕ} {heights : List ℕ}
    (hquiet : ∀ h ∈ heights, StakeQuiet (logsAt (base + h)))
    (hmature : ∀ h ∈ heights, h ≤ m ∧ l'.NoneMature m) :
    SameStake taken (absorbAll logsAt base l heights) taken' l' := by
  induction heights generalizing l with
  | nil => exact h
  | cons height heights ih =>
    obtain ⟨hle, hnone⟩ := hmature height (List.mem_cons_self ..)
    have hfirst : SameStake taken (l.absorb height (logsAt (base + height))) taken' l' := by
      rw [l.absorb_of_quiet (hquiet height (List.mem_cons_self ..))]
      exact h.advance_left hnone hle
    exact ih hfirst (fun h hh => hquiet h (List.mem_cons_of_mem _ hh))
      fun h hh => hmature h (List.mem_cons_of_mem _ hh)

namespace AlwaysExecutes
variable {r : ℕ → ElNode}

/-- Blocks without evidence can be absorbed one after the other before anything is taken. -/
theorem absorbAll (hr : AlwaysExecutes c r) (hc : Numbered logsAt base c)
    {taken : List ValidatorUpdate} {l : BondedStakeLedger} {m : ℕ}
    (h : SameStake taken l (r m).stagedValidatorUpdates (r m).app.stakeSource) {j : ℕ}
    (hj : m + j ≤ c.blocks.length)
    (hclean : ∀ b ∈ c.blocks, m < b.height → b.height ≤ m + j → b.offenders = []) :
    SameStake taken (absorbAll logsAt base l (List.range' (m + 1) j))
        (r (m + j)).stagedValidatorUpdates (r (m + j)).app.stakeSource ∧
      (r (m + j)).stagedEffects =
        (r m).stagedEffects ++ effectsOf logsAt base (List.range' (m + 1) j) := by
  induction j with
  | zero => exact ⟨h, (List.append_nil _).symm⟩
  | succ j ih =>
    obtain ⟨hsame, heffects⟩ := ih (by omega) fun b hb hlow hhigh => hclean b hb hlow (by omega)
    have hget := List.getElem?_eq_getElem (show m + j < c.blocks.length by omega)
    have hmem := List.mem_of_getElem? hget
    have hheight := c.height (m + j) _ hget
    have hnone := hclean _ hmem (by omega) (by omega)
    have hlogs := hc.logs_eq hmem
    have hstake := hr.stakeSource (m + j) _ hget
    rw [hnone, List.foldl_nil, hheight] at hstake
    have hupdates := hr.updates (m + j) _ hget
    rw [hheight] at hupdates hlogs
    have hlast : m + 1 + j = m + j + 1 := by omega
    rw [List.range'_1_concat, absorbAll_append, effectsOf_append, hlast, ← add_assoc, hstake,
      hupdates, hr.effects (m + j) _ hget, heffects, hlogs, List.append_assoc]
    refine ⟨(hsame.absorb (m + j + 1) (logsAt (base + (m + j + 1)))).symm.take.symm, ?_⟩
    congr 2
    exact (List.flatMap_singleton ..).symm

end AlwaysExecutes

theorem AlwaysExecutes.noneMature {r : ℕ → ElNode} (hr : AlwaysExecutes c r)
    (hc : Numbered logsAt base c) {m : ℕ} (hpos : 0 < m) (hm : m ≤ c.blocks.length)
    (hquiet : StakeQuiet (logsAt (base + m))) : (r m).app.stakeSource.NoneMature m := by
  obtain ⟨k, rfl⟩ := Nat.exists_eq_add_of_lt hpos
  rw [Nat.zero_add] at hm hquiet ⊢
  have hget := List.getElem?_eq_getElem (show k < c.blocks.length by omega)
  have hheight := c.height k _ hget
  have hlogs := hc.logs_eq (List.mem_of_getElem? hget)
  rw [hr.stakeSource k _ hget, hlogs, hheight, BondedStakeLedger.absorb_of_quiet hquiet]
  have hnone : ((r k).app.stakeSource.advanceToHeight (k + 1)).takeUpdates.1.NoneMature (k + 1) :=
    (r k).app.stakeSource.noneMature_advanceToHeight (k + 1)
  exact hnone.slashes _

theorem mem_executes {frontier height i : ℕ} (h : i ∈ executes frontier height) :
    frontier < i ∧ i ≤ height ∨ i = height := by
  rcases List.mem_append.mp h with hgap | hown
  · have hgap := List.mem_range'_1.mp hgap
    omega
  · exact .inr (List.mem_singleton.mp hown)

/-- An application that has absorbed what the node `r m` has. A replay can leave its frontier
below, with blocks in between that concern no validator. -/
structure Follows (logsAt : ℕ → List Log) (base : ℕ) (r : ℕ → ElNode)
    (staged : List ValidatorUpdate) (effects : List ValidatorEffect) (a : RethApplication) (m : ℕ) :
    Prop where
  reached : a.committed.height ≤ m
  currentHeight : a.stakeSource.currentHeight = a.committed.height
  same : SameStake staged a.stakeSource (r m).stagedValidatorUpdates (r m).app.stakeSource
  pending : a.stakeSource.pending = (r m).app.stakeSource.pending
  effects : effects = (r m).stagedEffects
  quiet : ∀ h, a.committed.height < h → h ≤ m → Quiet (logsAt (base + h))
  settled : a.committed.height < m → (r m).app.stakeSource.NoneMature m

namespace Follows
variable {r : ℕ → ElNode} {staged : List ValidatorUpdate} {effects : List ValidatorEffect}
  {a a' : RethApplication} {m : ℕ}

theorem executes_split {k : ℕ} (hreached : a.committed.height ≤ m) (hk : m ≤ k) :
    executes a.committed.height (k + 1) =
      List.range' (a.committed.height + 1) (m - a.committed.height) ++
        (List.range' (m + 1) (k - m) ++ [k + 1]) := by
  have hgap := List.range'_append_1 (s := a.committed.height + 1) (m := m - a.committed.height)
    (n := k - m)
  have hstart : a.committed.height + 1 + (m - a.committed.height) = m + 1 := by omega
  have hlen : m - a.committed.height + (k - m) = k + 1 - (a.committed.height + 1) := by omega
  rw [hstart, hlen] at hgap
  rw [executes, ← hgap, List.append_assoc]

/-- A block above all that was executed. -/
theorem commit (h : Follows logsAt base r staged effects a m) (hr : AlwaysExecutes c r)
    (hc : Numbered logsAt base c) {b : RethBlock} (hb : b ∈ c.blocks) (hm : m < b.height)
    (hclean : ∀ b' ∈ c.blocks, m < b'.height → b'.height < b.height → b'.offenders = [])
    (hheight : a'.committed.height = b.height)
    (hstake : a'.stakeSource = b.offenders.foldl .slash (absorbAll logsAt base a.stakeSource
      (executes a.committed.height b.height)).takeUpdates.1) :
    Follows logsAt base r
      (staged ++ (absorbAll logsAt base a.stakeSource
        (executes a.committed.height b.height)).pending)
      (effects ++ effectsOf logsAt base (executes a.committed.height b.height)) a' b.height := by
  obtain ⟨k, hk, hget⟩ := List.mem_iff_getElem.mp hb
  have hget' : c.blocks[k]? = some b := by rw [List.getElem?_eq_getElem hk, hget]
  have hbk := c.height k b hget'
  have hrange : ∀ i ∈ List.range' (a.committed.height + 1) (m - a.committed.height),
      a.committed.height < i ∧ i ≤ m := by
    intro i hi
    have hi := List.mem_range'_1.mp hi
    omega
  have hquiet : ∀ i ∈ List.range' (a.committed.height + 1) (m - a.committed.height),
      Quiet (logsAt (base + i)) := fun i hi => h.quiet i (hrange i hi).1 (hrange i hi).2
  have hsplit := executes_split (k := k) h.reached (by omega)
  have hlow := h.same.absorbAll_quiet (fun i hi => (hquiet i hi).1) fun i hi =>
    ⟨(hrange i hi).2, h.settled ((hrange i hi).1.trans_le (hrange i hi).2)⟩
  obtain ⟨hhigh, heffects⟩ := hr.absorbAll hc hlow (j := k - m) (by omega)
    fun b' hb' hb₁ hb₂ => hclean b' hb' hb₁ (by omega)
  rw [Nat.add_sub_cancel' (by omega : m ≤ k)] at hhigh heffects
  have hown := hhigh.absorb b.height (logsAt (base + b.height))
  have hl : absorbAll logsAt base a.stakeSource (executes a.committed.height b.height) =
      (absorbAll logsAt base (absorbAll logsAt base a.stakeSource
        (List.range' (a.committed.height + 1) (m - a.committed.height)))
        (List.range' (m + 1) (k - m))).absorb b.height (logsAt (base + b.height)) := by
    rw [hbk, hsplit, absorbAll_append, absorbAll_append]
    rfl
  rw [← hl] at hown
  have htaken := hown.take.symm.take.symm.slashes b.offenders
  have hlogs := hc.logs_eq hb
  have hr₁ := hr.stakeSource k b hget'
  have hr₂ := hr.updates k b hget'
  have hr₃ := hr.effects k b hget'
  rw [← hbk, hlogs] at hr₁ hr₂ hr₃
  have hsame : SameStake (staged ++ (absorbAll logsAt base a.stakeSource
      (executes a.committed.height b.height)).pending) a'.stakeSource
      (r b.height).stagedValidatorUpdates (r b.height).app.stakeSource := by
    rw [hstake, hr₁, hr₂]
    exact htaken
  have hstaged : staged ++ (absorbAll logsAt base a.stakeSource
      (executes a.committed.height b.height)).pending = (r b.height).stagedValidatorUpdates := by
    rw [hr₂]
    exact hown.updates
  refine ⟨hheight.le, ?_, hsame, ?_, ?_, fun i hlow hhigh => ?_, fun hlow => ?_⟩
  · rw [hstake, foldl_keeps BondedStakeLedger.currentHeight_slash, hheight, hl]
    exact BondedStakeLedger.currentHeight_absorb ..
  · have hupdates := hsame.updates
    rw [hstaged] at hupdates
    exact List.append_cancel_left hupdates
  · rw [hr₃, heffects, h.effects, hbk, hsplit, effectsOf_append, effectsOf_append,
      effectsOf_quiet hquiet, List.nil_append, List.append_assoc]
    congr 2
    exact List.flatMap_singleton ..
  · omega
  · omega

/-- Blocks that are executed again, or that were skipped, concern no validator. -/
theorem recommit (h : Follows logsAt base r staged effects a m) {height : ℕ} (hle : height ≤ m)
    (hpending : a.stakeSource.pending = [])
    (hquiet : ∀ i ∈ executes a.committed.height height, Quiet (logsAt (base + i)))
    (habove : ∀ i, height < i → i ≤ m → Quiet (logsAt (base + i)))
    (hnone : (r m).app.stakeSource.NoneMature m)
    (hheight : a'.committed.height = height)
    (hstake : a'.stakeSource = (absorbAll logsAt base a.stakeSource
      (executes a.committed.height height)).takeUpdates.1) :
    Follows logsAt base r staged effects a' m := by
  have hsame := h.same.absorbAll_quiet (m := m) (fun i hi => (hquiet i hi).1) fun i hi =>
    ⟨by rcases mem_executes hi with hgap | rfl <;> omega, hnone⟩
  have hkept := pending_absorbAll base (fun i hi => (hquiet i hi).1) a.stakeSource
  have htaken := hsame.take
  rw [hkept, hpending, List.append_nil, ← hstake] at htaken
  refine ⟨hheight.le.trans hle, ?_, htaken, ?_, h.effects, fun i hlow hhigh => ?_, fun _ => hnone⟩
  · rw [hstake, hheight, executes, absorbAll_append]
    exact BondedStakeLedger.currentHeight_absorb ..
  · rw [hstake, ← h.pending, hpending]
    rfl
  · exact habove i (hheight ▸ hlow) hhigh

/-- A commit of a replay above the height `low`. -/
theorem replayCommit (h : Follows logsAt base r staged effects a m) (hr : AlwaysExecutes c r)
    (hc : Numbered logsAt base c) {low top : ℕ} (htop : top ≤ c.blocks.length) (hm : m ≤ top)
    (hquiet : ∀ i, low < i → i ≤ top → Quiet (logsAt (base + i)))
    (hclean : ∀ b ∈ c.blocks, m < b.height → b.height ≤ top → b.offenders = [])
    (hfrontier : low ≤ a.committed.height) (hpending : a.stakeSource.pending = [])
    {b : RethBlock} (hb : b ∈ c.blocks) (hlow : low < b.height) (hhigh : b.height ≤ top)
    (answer : ElAnswer) :
    ∃ m', m ≤ m' ∧ m' ≤ top ∧ low ≤ (a.commit logsAt b answer).1.committed.height ∧
      (a.commit logsAt b answer).1.stakeSource.pending = [] ∧
      Follows logsAt base r staged effects (a.commit logsAt b answer).1 m' := by
  by_cases hanswer : answer = .valid
  · subst hanswer
    have hexecuted : ∀ i ∈ executes a.committed.height b.height, Quiet (logsAt (base + i)) := by
      intro i hi
      rcases mem_executes hi with hgap | rfl
      · exact hquiet i (by omega) (by omega)
      · exact hquiet _ hlow hhigh
    have hkept := pending_absorbAll base (fun i hi => (hexecuted i hi).1) a.stakeSource
    obtain ⟨a', hcommit, hheight, hstake, -⟩ := commit_valid hc a hb
    rw [hcommit]
    have hnone : a'.stakeSource.pending = [] := by rw [hstake]; rfl
    by_cases hnew : m < b.height
    · have hoffenders := hclean b hb hnew hhigh
      have hfollows := h.commit hr hc hb hnew
        (fun b' hb' hb₁ hb₂ => hclean b' hb' hb₁ (by omega)) hheight
        (by rw [hoffenders, hstake]; rfl)
      rw [hkept, hpending, effectsOf_quiet hexecuted, List.append_nil, List.append_nil] at hfollows
      exact ⟨b.height, hnew.le, hhigh, by rw [hheight]; omega, hnone, hfollows⟩
    · have hmature := hr.noneMature hc (m := m) (by omega) (by omega)
        (hquiet m (by omega) hm).1
      have hfollows := h.recommit (by omega) hpending hexecuted
        (fun i hi₁ hi₂ => hquiet i (by omega) (by omega)) hmature hheight hstake
      exact ⟨m, le_rfl, hm, by rw [hheight]; omega, hnone, hfollows⟩
  · rw [(commit_not_valid logsAt a b hanswer).1]
    exact ⟨m, le_rfl, hm, hfrontier, hpending, h⟩

theorem replayBlocks (h : Follows logsAt base r staged effects a m) (hr : AlwaysExecutes c r)
    (hc : Numbered logsAt base c) {low top : ℕ} (htop : top ≤ c.blocks.length) (hm : m ≤ top)
    (hquiet : ∀ i, low < i → i ≤ top → Quiet (logsAt (base + i)))
    (hclean : ∀ b ∈ c.blocks, m < b.height → b.height ≤ top → b.offenders = [])
    (hfrontier : low ≤ a.committed.height) (hpending : a.stakeSource.pending = [])
    {gap : List RethBlock} (hgap : ∀ b ∈ gap, b ∈ c.blocks ∧ low < b.height ∧ b.height ≤ top)
    (answers : ℕ → ElAnswer) :
    ∃ m', m ≤ m' ∧ m' ≤ top ∧
      Follows logsAt base r staged effects (ElNode.replayBlocks logsAt answers a gap) m' := by
  induction gap generalizing a m with
  | nil => exact ⟨m, le_rfl, hm, h⟩
  | cons b gap ih =>
    obtain ⟨hb, hlow, hhigh⟩ := hgap b (List.mem_cons_self ..)
    obtain ⟨m', hle, hm', hfrontier', hpending', hfollows⟩ := h.replayCommit hr hc htop hm hquiet
      hclean hfrontier hpending hb hlow hhigh (answers b.height)
    rw [ElNode.replayBlocks]
    split
    · next a' result happ =>
      rw [happ] at hfollows hfrontier' hpending'
      obtain ⟨m'', hle', hm'', hrest⟩ := ih hfollows hm'
        (fun b' hb' hb₁ hb₂ => hclean b' hb' (by omega) hb₂) hfrontier' hpending'
        fun b' hb' => hgap b' (List.mem_cons_of_mem _ hb')
      exact ⟨m'', hle.trans hle', hm'', hrest⟩
    · next a' happ =>
      rw [happ] at hfollows
      exact ⟨m', hle, hm', hfollows⟩

end Follows

variable (logsAt) in
theorem replayBlocks_of_not_valid {answers : ℕ → ElAnswer} {gap : List RethBlock}
    (h : ∀ b ∈ gap, answers b.height ≠ .valid) (a : RethApplication) :
    ElNode.replayBlocks logsAt answers a gap = a := by
  induction gap with
  | nil => rfl
  | cons b gap ih =>
    have hsame := (commit_not_valid logsAt a b (h b (List.mem_cons_self ..))).1
    rw [ElNode.replayBlocks]
    split
    · next a' result happ =>
      rw [happ] at hsame
      obtain rfl : a' = a := hsame
      exact ih fun b' hb' => h b' (List.mem_cons_of_mem _ hb')
    · next a' happ => rwa [happ] at hsame

variable (logsAt window) in
theorem commitBlock_not_valid (n : ElNode) {b : RethBlock} {answer : ElAnswer}
    (h : answer ≠ .valid) (hclean : b.offenders = []) :
    let n' := n.commitBlock logsAt window b answer
    n'.app = n.app ∧ n'.lastCommittedHeight = max n.lastCommittedHeight b.height ∧
      n'.stagedValidatorUpdates = n.stagedValidatorUpdates ∧
      n'.stagedEffects = n.stagedEffects := by
  obtain ⟨happ, hresult⟩ := commit_not_valid logsAt n.app b h
  rcases hcommit : n.app.commit logsAt b answer with ⟨app, _ | result⟩
  · rw [hcommit] at happ
    obtain rfl : app = n.app := happ
    simp [ElNode.commitBlock, hcommit, ElNode.applyCommit, hclean]
  · rw [hcommit] at happ hresult
    obtain rfl : app = n.app := happ
    obtain rfl := hresult result rfl
    simp [ElNode.commitBlock, hcommit, ElNode.applyCommit, ElNode.stageAppValidatorUpdates, hclean]

theorem CommittedChain.eq_of_height (c : CommittedChain) {b b' : RethBlock}
    (hb : b ∈ c.blocks) (hb' : b' ∈ c.blocks) (h : b.height = b'.height) : b = b' := by
  obtain ⟨k, hk⟩ := List.mem_iff_getElem?.mp hb
  obtain ⟨k', hk'⟩ := List.mem_iff_getElem?.mp hb'
  have hindex : k = k' := by
    rw [c.height k b hk, c.height k' b' hk'] at h
    omega
  rw [hindex, hk'] at hk
  exact (Option.some.inj hk).symm

theorem ElNode.elFrontier_le (n : ElNode) (elHead : Option ℕ) :
    n.elFrontier elHead ≤ n.app.committed.height := by
  cases elHead with
  | none => exact le_rfl
  | some head =>
    simp only [elFrontier]
    split_ifs with hbelow
    · exact hbelow.le
    · exact le_rfl

/-- A node that has missed nothing so far. -/
structure Abreast (logsAt : ℕ → List Log) (base : ℕ) (c : CommittedChain) (r : ℕ → ElNode)
    (n : ElNode) (m : ℕ) : Prop where
  known : m ≤ n.lastCommittedHeight
  inside : n.lastCommittedHeight ≤ c.blocks.length
  retained : ∀ b ∈ n.retained, b ∈ c.blocks
  clean : ∀ b ∈ c.blocks, m < b.height → b.height ≤ n.lastCommittedHeight → b.offenders = []
  follows : Follows logsAt base r n.stagedValidatorUpdates n.stagedEffects n.app m

/-- A commit retains the block, and others that were. -/
theorem retained_commitBlock (logsAt : ℕ → List Log) (window : ℕ) {n : ElNode}
    (h : ∀ b ∈ n.retained, b ∈ c.blocks) {b : RethBlock} (hmem : b ∈ c.blocks)
    (answer : ElAnswer) :
    ∀ b' ∈ (n.commitBlock logsAt window b answer).retained, b' ∈ c.blocks := by
  intro b' hb'
  rcases n.commitBlock_retained b answer b' hb' with hold | rfl
  · exact h b' hold
  · exact hmem

/-- One more block that convicts nobody. -/
theorem clean_succ {m top : ℕ}
    (h : ∀ b ∈ c.blocks, m < b.height → b.height ≤ top → b.offenders = []) {b : RethBlock}
    (hmem : b ∈ c.blocks) (hheight : b.height = top + 1) (hclean : b.offenders = []) :
    ∀ b' ∈ c.blocks, m < b'.height → b'.height ≤ top + 1 → b'.offenders = [] := by
  intro b' hb' hlow hhigh
  by_cases hold : b'.height ≤ top
  · exact h b' hb' hlow hold
  · obtain rfl := c.eq_of_height hb' hmem (by omega)
    exact hclean

namespace Abreast
variable {r : ℕ → ElNode} {n : ElNode} {m : ℕ}

theorem commitBlock (h : Abreast logsAt base c r n m) (hr : AlwaysExecutes c r)
    (hc : Numbered logsAt base c) {b : RethBlock}
    (hb : c.blocks[n.lastCommittedHeight]? = some b) {answer : ElAnswer}
    (hanswer : answer ≠ .valid → b.offenders = []) :
    ∃ m', Abreast logsAt base c r (n.commitBlock logsAt window b answer) m' := by
  have hmem := List.mem_of_getElem? hb
  have hlen := (List.getElem?_eq_some_iff.mp hb).1
  have hheight := c.height _ b hb
  have hknown := h.known
  have hretained := retained_commitBlock logsAt window h.retained hmem answer
  by_cases hvalid : answer = .valid
  · subst hvalid
    obtain ⟨hfrontier, hstake, hlast, hupdates, heffects, -⟩ :=
      commitBlock_valid window hc n hmem
    refine ⟨b.height, by omega, by omega, hretained, fun b' _ _ _ => by omega, ?_⟩
    rw [hupdates, heffects]
    exact h.follows.commit hr hc hmem (by omega)
      (fun b' hb' hb₁ hb₂ => h.clean b' hb' hb₁ (by omega)) hfrontier hstake
  · have hclean := hanswer hvalid
    obtain ⟨happ, hlast, hupdates, heffects⟩ :=
      commitBlock_not_valid logsAt window n hvalid hclean
    refine ⟨m, by omega, by omega, hretained, fun b' hb' hb₁ hb₂ => ?_, ?_⟩
    · exact clean_succ h.clean hmem hheight hclean b' hb' hb₁ (by omega)
    · rw [happ, hupdates, heffects]
      exact h.follows

theorem step (h : Abreast logsAt base c r n m) (hr : AlwaysExecutes c r)
    (hc : Numbered logsAt base c) {input : LagInput} (hinput : NothingMissed c n input) :
    ∃ m', Abreast logsAt base c r (lagStep logsAt window c n input) m' := by
  cases input with
  | commit answer =>
    rw [lagStep, RootSystem.commitNext]
    split
    · exact ⟨m, h⟩
    · next b hb => exact h.commitBlock hr hc hb fun hvalid => hinput hvalid b hb
  | replay minGap elHead answers =>
    rw [lagStep, ElNode.elCatchupReplay]
    by_cases hvalid : ∃ b ∈ n.replayed minGap elHead, answers b.height = .valid
    · obtain ⟨hpending, hquiet⟩ := hinput hvalid
      have hquiet' : ∀ i, n.elFrontier elHead < i → i ≤ n.lastCommittedHeight →
          Quiet (logsAt (base + i)) := by
        intro i hlow hhigh
        have hinside := h.inside
        have hget := List.getElem?_eq_getElem (show i - 1 < c.blocks.length by omega)
        have hheight := c.height (i - 1) _ hget
        have hmem := List.mem_of_getElem? hget
        have hi := hquiet _ hmem (by omega) (by omega)
        rwa [hc.logs_eq hmem, hheight, Nat.sub_add_cancel (by omega)] at hi
      obtain ⟨m', hle, htop, hfollows⟩ := h.follows.replayBlocks hr hc h.inside h.known hquiet'
        h.clean (n.elFrontier_le elHead) hpending
        (fun b hb => (ElNode.mem_replayed hb).imp_left (h.retained b)) answers
      exact ⟨m', htop, h.inside, h.retained, fun b hb hb₁ hb₂ => h.clean b hb (by omega) hb₂,
        hfollows⟩
    · have hsame := replayBlocks_of_not_valid logsAt
        (fun b hb hanswer => hvalid ⟨b, hb, hanswer⟩) n.app
      rw [hsame]
      exact ⟨m, h⟩

end Abreast

theorem AlwaysExecutes.currentHeight {r : ℕ → ElNode} (hr : AlwaysExecutes c r) {k : ℕ}
    (hk : k ≤ c.blocks.length) : (r k).app.stakeSource.currentHeight = k := by
  cases k with
  | zero => exact hr.start
  | succ k =>
    have hget := List.getElem?_eq_getElem (show k < c.blocks.length by omega)
    rw [hr.stakeSource k _ hget, foldl_keeps BondedStakeLedger.currentHeight_slash,
      ← c.height k _ hget]
    exact BondedStakeLedger.currentHeight_absorb ..

theorem Abreast.start (logsAt : ℕ → List Log) (window : ℕ) (genesis : List (NodeId × ℕ))
    (genesisRoot : Bytes32) (base : ℕ) (c : CommittedChain) :
    Abreast logsAt base c (alwaysValid logsAt window genesis genesisRoot c)
      (.start (.start genesis genesisRoot)) 0 where
  known := le_rfl
  inside := Nat.zero_le _
  retained := nofun
  clean := fun b _ hlow hhigh => absurd hhigh (by exact Nat.not_le.mpr hlow)
  follows :=
    { reached := le_rfl
      currentHeight := rfl
      same := ⟨fun _ => rfl, fun _ => rfl, rfl⟩
      pending := rfl
      effects := rfl
      quiet := fun h hlow hhigh => absurd hhigh (Nat.not_le.mpr hlow)
      settled := fun hlow => absurd hlow (Nat.lt_irrefl 0) }

/-- A node that is abreast at its last height has staged what the other one has. -/
theorem Abreast.sameEffects {r : ℕ → ElNode} {n : ElNode} {m : ℕ}
    (h : Abreast logsAt base c r n m) (hr : AlwaysExecutes c r)
    (hcaught : n.app.committed.height = n.lastCommittedHeight) :
    SameEffects n (r n.lastCommittedHeight) := by
  obtain rfl : m = n.lastCommittedHeight := le_antisymm h.known (hcaught ▸ h.follows.reached)
  have hupdates := h.follows.same.updates
  rw [h.follows.pending] at hupdates
  exact
    { updates := List.append_cancel_right hupdates
      effects := h.follows.effects
      stake := h.follows.same.stake
      queue := h.follows.same.queue
      currentHeight := by
        rw [h.follows.currentHeight, hcaught, hr.currentHeight h.inside]
      pending := h.follows.pending }

/-- In a run that misses nothing, a node whose execution layer has caught up with its commits is
where it would be had it executed every block at once. -/
theorem effects_of_catchup (logsAt : ℕ → List Log) (window : ℕ) (genesis : List (NodeId × ℕ))
    (genesisRoot : Bytes32) (base : ℕ) (c : CommittedChain) (hc : Numbered logsAt base c)
    (inputs : List LagInput)
    (h : Along (lagStep logsAt window c) (NothingMissed c)
      (.start (.start genesis genesisRoot)) inputs)
    (hcaught : (run (lagStep logsAt window c) (.start (.start genesis genesisRoot))
        inputs).app.committed.height =
      (run (lagStep logsAt window c) (.start (.start genesis genesisRoot))
        inputs).lastCommittedHeight) :
    SameEffects
      (run (lagStep logsAt window c) (.start (.start genesis genesisRoot)) inputs)
      (alwaysValid logsAt window genesis genesisRoot c
        (run (lagStep logsAt window c) (.start (.start genesis genesisRoot))
          inputs).lastCommittedHeight) := by
  have hr := alwaysValid_executes window genesis genesisRoot hc
  obtain ⟨m, hm⟩ := h.invariant
    (I := fun n => ∃ m, Abreast logsAt base c (alwaysValid logsAt window genesis genesisRoot c) n m)
    (fun n input hinput ⟨m, hm⟩ => hm.step hr hc hinput)
    ⟨0, Abreast.start logsAt window genesis genesisRoot base c⟩
  exact hm.sameEffects hr hcaught

end

namespace Sample

/-- One block deposits, the other ones do nothing. -/
def depositAt (k : ℕ) : ℕ → List Log := fun h => if h = k then [depositLog 7 100] else []

theorem depositAt_numbered (k len : ℕ) (h : len < 2 ^ 64) :
    Numbered (depositAt k) 0 (chainOf len (depositAt k)) where
  payload b hb := by
    obtain ⟨k, -, rfl⟩ := List.mem_map.mp hb
    refine ⟨_, rfl, by rw [Nat.zero_add], ?_⟩
    rw [Nat.zero_add]
    exact List.flatMap_singleton ..
  bound := by simpa [chainOf] using h

def lagging (inputs : List LagInput) : ElNode :=
  run (lagStep (depositAt 1) 10 (chainOf 3 (depositAt 1))) (.start (.start [] 10)) inputs

/-- The deposit is caught up with by the second block. -/
theorem caughtUp_by_commit :
    SameEffects (lagging [.commit .syncing, .commit .valid, .commit .syncing,
        .replay 1 none fun _ => .valid])
      (alwaysValid (depositAt 1) 10 [] 10 (chainOf 3 (depositAt 1)) 3) :=
  effects_of_catchup (depositAt 1) 10 [] 10 0 (chainOf 3 (depositAt 1))
    (depositAt_numbered 1 3 (by decide))
    [.commit .syncing, .commit .valid, .commit .syncing, .replay 1 none fun _ => .valid]
    (by decide) (by decide)

/-- The replay executes the deposit, whose update goes nowhere. -/
theorem update_lost :
    Numbered (depositAt 1) 0 (chainOf 3 (depositAt 1)) ∧
      (lagging [.commit .syncing, .replay 1 none fun _ => .valid]).app.committed.height =
        (lagging [.commit .syncing, .replay 1 none fun _ => .valid]).lastCommittedHeight ∧
      ¬ SameEffects (lagging [.commit .syncing, .replay 1 none fun _ => .valid])
        (alwaysValid (depositAt 1) 10 [] 10 (chainOf 3 (depositAt 1)) 1) := by
  refine ⟨depositAt_numbered 1 3 (by decide), by decide, fun h => ?_⟩
  exact absurd h.updates (by decide)

end Sample

end Boule
