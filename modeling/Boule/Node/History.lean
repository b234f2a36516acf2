import Boule.HotStuff.VoteBuckets
import Boule.Node.Blocks

/-! The validator histories of a node: what a committed block adds to them, and how they are
written to disk and read back. -/
namespace Boule

/-- The history with the boundary of a change, if there is one and it is taken. -/
def ValidatorSetHistory.extendBy (h : ValidatorSetHistory) :
    Option (ReconfigCommand × ValidatorSet) → ValidatorSetHistory
  | none => h
  | some (cmd, newSet) => h.extend cmd.vEff newSet

namespace ConsensusNode

section
variable (R : ReconfigPrimitives) (minVEffDelay : ℕ) (chainId : ChainId)

/-- The first command of the block that asks for a change the history allows. -/
def blockChange (history : ValidatorSetHistory) (block : Block) :
    Option (ReconfigCommand × ValidatorSet) :=
  block.commands.findSome? (reconfigChange R minVEffDelay chainId history block.header.view)

/-- The history after the block. -/
def historyAfter (history : ValidatorSetHistory) (block : Block) : ValidatorSetHistory :=
  history.extendBy (blockChange R minVEffDelay chainId history block)

end

section
variable {R : ReconfigPrimitives} {minVEffDelay : ℕ} {chainId : ChainId}

/-- A change is at least four views ahead of its block, and no boundary is ahead of the
block. -/
theorem reconfigChange_eq_some {history : ValidatorSetHistory} {blockView : ℕ} {bytes : Bytes}
    {cmd : ReconfigCommand} {newSet : ValidatorSet}
    (h : reconfigChange R minVEffDelay chainId history blockView bytes = some (cmd, newSet)) :
    blockView + delayFloor ≤ cmd.vEff ∧ ∀ e ∈ history.iter, e.1 ≤ blockView := by
  by_cases htag : (!ReconfigCommand.isReconfigPayload bytes) = true
  · simp [reconfigChange, htag] at h
  · simp only [reconfigChange, if_neg htag, Option.bind_eq_bind] at h
    obtain ⟨cmd', -, h⟩ := Option.bind_eq_some_iff.mp h
    obtain ⟨next, hnext, h⟩ := Option.bind_eq_some_iff.mp h
    split_ifs at h with hconflict
    · cases h
    · obtain ⟨set, -, h⟩ := Option.bind_eq_some_iff.mp h
      obtain ⟨rfl, rfl⟩ := Prod.mk.inj (Option.some.inj h)
      refine ⟨ReconfigCommand.delay_of_validate (toOption_eq_some.mp hnext), ?_⟩
      intro e he
      by_contra hlt
      apply hconflict
      exact List.any_eq_true.mpr ⟨e, he, by simp; omega⟩

theorem last_lt_of_reconfigChange {history : ValidatorSetHistory} {blockView : ℕ} {bytes : Bytes}
    {cmd : ReconfigCommand} {newSet : ValidatorSet}
    (h : reconfigChange R minVEffDelay chainId history blockView bytes = some (cmd, newSet)) :
    history.last.vEff < cmd.vEff := by
  obtain ⟨hdelay, hle⟩ := reconfigChange_eq_some h
  have hmem : (history.last.vEff, history.last.set) ∈ history.iter :=
    List.mem_map_of_mem (List.getLast_mem history.boundaries_ne_nil)
  have hlast := hle _ hmem
  have hfloor : delayFloor = 4 := rfl
  simp only at hlast
  omega

/-- While a boundary is ahead of the block, its other commands are passed over. -/
theorem reconfigChange_eq_none {history : ValidatorSetHistory} {blockView : ℕ}
    (h : blockView < history.last.vEff) (bytes : Bytes) :
    reconfigChange R minVEffDelay chainId history blockView bytes = none := by
  cases hc : reconfigChange R minVEffDelay chainId history blockView bytes with
  | none => rfl
  | some change =>
    obtain ⟨-, hle⟩ := reconfigChange_eq_some hc
    have hmem : (history.last.vEff, history.last.set) ∈ history.iter :=
      List.mem_map_of_mem (List.getLast_mem history.boundaries_ne_nil)
    exact absurd (hle _ hmem) (by simp only; omega)

theorem foldl_applyReconfigPayload {n : ConsensusNode} {blockView : ℕ}
    (h : blockView < n.validatorHistory.last.vEff) (applied : Bool) (commands : List Bytes) :
    commands.foldl (applyReconfigPayload R minVEffDelay chainId blockView) (n, applied) =
      (n, applied) := by
  induction commands with
  | nil => rfl
  | cons bytes commands ih =>
    rw [List.foldl_cons, applyReconfigPayload, reconfigChange_eq_none h]
    exact ih

/-- A change is taken by the node's own history, and by the core's if it can. -/
structure ChangeApplied (n : ConsensusNode) (cmd : ReconfigCommand) (newSet : ValidatorSet)
    (r : ConsensusNode × Bool) : Prop where
  inserted : n.validatorHistory.insertBoundary cmd.vEff newSet = .ok r.1.validatorHistory
  core : r.1.core.state.validatorHistory = n.core.state.validatorHistory.extend cmd.vEff newSet
  applied : r.2 = true ↔ n.core.state.validatorHistory.last.vEff < cmd.vEff

theorem changeApplied_applyReconfig {n : ConsensusNode} {cmd : ReconfigCommand}
    (h : n.validatorHistory.last.vEff < cmd.vEff) (newSet : ValidatorSet) :
    ChangeApplied n cmd newSet (n.applyReconfig cmd newSet) := by
  obtain ⟨history, hi, -⟩ := ValidatorSetHistory.insertBoundary_of_lt h newSet
  unfold applyReconfig HotStuffCore.insertValidatorBoundary
  rw [hi]
  by_cases hl : n.core.state.validatorHistory.last.vEff < cmd.vEff
  · obtain ⟨coreHistory, hc, -⟩ := ValidatorSetHistory.insertBoundary_of_lt hl newSet
    rw [hc]
    exact ⟨hi, (ValidatorSetHistory.extend_of_insertBoundary hc).symm, by simp [hl]⟩
  · have hc : n.core.state.validatorHistory.insertBoundary cmd.vEff newSet =
        .error n.core.state.validatorHistory.last.vEff := by
      unfold ValidatorSetHistory.insertBoundary
      rw [dif_pos (by omega)]
    have he := ValidatorSetHistory.extend_of_le (Nat.le_of_not_lt hl) newSet
    rw [hc]
    exact ⟨hi, he.symm, by simp [hl]⟩

/-- At most one command of a block is applied: the first that asks for a change. -/
theorem applyReconfigs_eq (n : ConsensusNode) (block : Block) :
    n.applyReconfigs R minVEffDelay chainId block =
      match blockChange R minVEffDelay chainId n.validatorHistory block with
      | none => (n, false)
      | some (cmd, newSet) => n.applyReconfig cmd newSet := by
  unfold applyReconfigs blockChange
  induction block.commands with
  | nil => rfl
  | cons bytes commands ih =>
    rw [List.foldl_cons, applyReconfigPayload]
    cases hc : reconfigChange R minVEffDelay chainId n.validatorHistory block.header.view bytes with
    | none =>
      rw [List.findSome?_cons_of_isNone (by simp [hc])]
      exact ih
    | some change =>
      obtain ⟨cmd, newSet⟩ := change
      rw [List.findSome?_cons_of_isSome (by simp [hc]), hc]
      have happly := changeApplied_applyReconfig (last_lt_of_reconfigChange hc) newSet
      have hlast : (n.applyReconfig cmd newSet).1.validatorHistory.last.vEff = cmd.vEff := by
        rw [ValidatorSetHistory.last_of_insertBoundary happly.inserted]
      have hdelay := (reconfigChange_eq_some hc).1
      have hfloor : delayFloor = 4 := rfl
      simp only [Bool.false_or]
      exact foldl_applyReconfigPayload (by omega) _ commands

theorem last_lt_of_blockChange {history : ValidatorSetHistory} {block : Block}
    {cmd : ReconfigCommand} {newSet : ValidatorSet}
    (h : blockChange R minVEffDelay chainId history block = some (cmd, newSet)) :
    history.last.vEff < cmd.vEff := by
  obtain ⟨bytes, -, hc⟩ := List.exists_of_findSome?_eq_some h
  exact last_lt_of_reconfigChange hc

end

/-- What a commit does to the histories. -/
structure CommitHistory (R : ReconfigPrimitives) (minVEffDelay : ℕ) (chainId : ChainId)
    (stored stored' : Option PersistedValidatorHistory) (n n' : ConsensusNode) (block : Block) :
    Prop where
  node : n'.validatorHistory = historyAfter R minVEffDelay chainId n.validatorHistory block
  core : n'.core.state.validatorHistory = n.core.state.validatorHistory.extendBy
    (blockChange R minVEffDelay chainId n.validatorHistory block)
  stored : n.core.state.validatorHistory = n.validatorHistory →
    stored' = some n'.validatorHistory.toPersisted ∨
      stored' = stored ∧ n'.validatorHistory = n.validatorHistory

theorem commitHistory_applyCommittedReconfigs (R : ReconfigPrimitives) (minVEffDelay : ℕ)
    (chainId : ChainId) (storage : Storage) (n : ConsensusNode) (block : Block) :
    CommitHistory R minVEffDelay chainId storage.validatorHistory
      (n.applyCommittedReconfigs R minVEffDelay chainId storage block).1.validatorHistory n
      (n.applyCommittedReconfigs R minVEffDelay chainId storage block).2 block := by
  unfold applyCommittedReconfigs
  simp only
  rw [applyReconfigs_eq]
  cases hc : blockChange R minVEffDelay chainId n.validatorHistory block with
  | none => exact ⟨by rw [historyAfter, hc]; rfl, by rw [hc]; rfl, fun _ => .inr ⟨rfl, rfl⟩⟩
  | some change =>
    obtain ⟨cmd, newSet⟩ := change
    have hlt := last_lt_of_blockChange hc
    have happly := changeApplied_applyReconfig hlt newSet
    constructor
    · rw [historyAfter, hc]
      exact (ValidatorSetHistory.extend_of_insertBoundary happly.inserted).symm
    · rw [hc]
      exact happly.core
    · intro hsame
      left
      have happlied : (n.applyReconfig cmd newSet).2 = true := by
        rw [happly.applied, hsame]
        exact hlt
      simp [happlied]

theorem applyCommit_eq_none_iff {P : Primitives} {R : ReconfigPrimitives} {cfg : NodeConfig}
    {s : Storage} {n : ConsensusNode} {block : Block} :
    n.applyCommit P R cfg s block = none ↔
      weakSubjectivityViolation cfg.weakSubjectivityCheckpoint block.header.height
        (block.hash P) = true := by
  unfold applyCommit
  simp only
  split_ifs <;> simp [*]

theorem commitHistory_applyCommit {P : Primitives} {R : ReconfigPrimitives} {cfg : NodeConfig}
    {storage storage' : Storage} {n n' : ConsensusNode} {block : Block}
    (h : n.applyCommit P R cfg storage block = some (storage', n')) :
    CommitHistory R cfg.minVEffDelay (cfg.chainId P) storage.validatorHistory
      storage'.validatorHistory n n' block := by
  have hhistory := n.advanced_validatorHistory block.header.height block.header.view
  have hcore := n.advanced_core block.header.height block.header.view
  have hcommit := commitHistory_applyCommittedReconfigs R cfg.minVEffDelay (cfg.chainId P)
    (committedStorage P cfg storage (n.advanced block.header.height block.header.view) block)
    (n.advanced block.header.height block.header.view) block
  obtain ⟨rfl, rfl⟩ := Prod.mk.inj (applyCommit_eq_some h)
  constructor
  · rw [← hhistory]
    exact hcommit.node
  · rw [← hhistory, ← hcore]
    exact hcommit.core
  · rw [← hhistory, ← hcore]
    exact hcommit.stored

end ConsensusNode

/-! ### Recovery -/

namespace ValidatorSetHistory

/-- The first boundary has the set `genesis`. -/
def StartsFrom (h : ValidatorSetHistory) (genesis : ValidatorSet) : Prop :=
  ∃ rest, h.boundaries = ⟨0, genesis⟩ :: rest

theorem StartsFrom.extendBy {h : ValidatorSetHistory} {genesis : ValidatorSet}
    (hs : h.StartsFrom genesis) (change : Option (ReconfigCommand × ValidatorSet)) :
    (h.extendBy change).StartsFrom genesis := by
  cases change with
  | none => exact hs
  | some change =>
    obtain ⟨cmd, newSet⟩ := change
    show (h.extend cmd.vEff newSet).StartsFrom genesis
    by_cases hl : h.last.vEff < cmd.vEff
    · obtain ⟨h', hi, hb⟩ := insertBoundary_of_lt hl newSet
      obtain ⟨rest, hr⟩ := hs
      rw [extend_of_insertBoundary hi]
      exact ⟨rest ++ [⟨cmd.vEff, newSet⟩], by rw [hb, hr, List.cons_append]⟩
    · rw [extend_of_le (Nat.le_of_not_lt hl)]
      exact hs

end ValidatorSetHistory

/-- Boundaries in order are all taken, and nothing else of the core changes. -/
theorem replayBoundaries_boundaries {c : HotStuffCore} {bs : List Boundary}
    (hs : ((c.state.validatorHistory.boundaries ++ bs).map Boundary.vEff).Pairwise (· < ·)) :
    ∃ history validatorSet, replayBoundaries c (bs.map fun b => (b.vEff, b.set)) =
        ({ c with state := { c.state with
            validatorHistory := history
            validatorSet := validatorSet } }, true) ∧
      history.boundaries = c.state.validatorHistory.boundaries ++ bs := by
  induction bs generalizing c with
  | nil => exact ⟨c.state.validatorHistory, c.state.validatorSet, rfl, by simp⟩
  | cons b bs ih =>
    have hlt := ValidatorSetHistory.last_lt_of_sorted hs
    obtain ⟨history, hi, hb⟩ := ValidatorSetHistory.insertBoundary_of_lt hlt b.set
    have hins : c.insertValidatorBoundary b.vEff b.set = .ok { c with state := { c.state with
        validatorHistory := history
        validatorSet := if b.vEff ≤ c.state.currentView then b.set else c.state.validatorSet } } :=
      bind_eq_ok.mpr ⟨history, hi, rfl⟩
    generalize hc₁ : ({ c with state := { c.state with
      validatorHistory := history
      validatorSet := if b.vEff ≤ c.state.currentView then b.set else c.state.validatorSet } } :
        HotStuffCore) = c₁ at hins
    have hb₁ : c₁.state.validatorHistory.boundaries ++ bs =
        c.state.validatorHistory.boundaries ++ b :: bs := by
      rw [← hc₁]
      simp only [hb, List.append_assoc, List.singleton_append]
    obtain ⟨history', vs, hr, hb'⟩ := ih (hb₁ ▸ hs)
    refine ⟨history', vs, ?_, hb'.trans hb₁⟩
    rw [List.map_cons, replayBoundaries, if_neg (by omega), hins]
    simp only
    rw [hr, ← hc₁]

/-- The core of a fresh replica takes over a history that starts from its set. -/
theorem replayBoundaries_iter {c : HotStuffCore} {genesis : ValidatorSet}
    {h : ValidatorSetHistory} (hc : c.state.validatorHistory = .fromGenesis genesis)
    (hs : h.StartsFrom genesis) :
    (replayBoundaries c h.iter).1.state.validatorHistory = h ∧
      (replayBoundaries c h.iter).2 = true := by
  obtain ⟨rest, hb⟩ := hs
  have hcb : c.state.validatorHistory.boundaries = [⟨0, genesis⟩] := by rw [hc]; rfl
  have hall : c.state.validatorHistory.boundaries ++ rest = h.boundaries := by
    rw [hcb, hb, List.singleton_append]
  have hsorted : ((c.state.validatorHistory.boundaries ++ rest).map Boundary.vEff).Pairwise
      (· < ·) := by
    rw [hall]
    exact h.sorted
  obtain ⟨history, validatorSet, hr, hb'⟩ := replayBoundaries_boundaries hsorted
  have hiter : h.iter = (0, genesis) :: rest.map fun b => (b.vEff, b.set) := by
    unfold ValidatorSetHistory.iter
    rw [hb, List.map_cons]
  rw [hiter, replayBoundaries, if_pos rfl, hr]
  exact ⟨ValidatorSetHistory.eq_of_boundaries (hb'.trans hall), rfl⟩

namespace ConsensusNode

/-- The history that a node reads from disk. -/
def storedHistory (cfg : NodeConfig) (stored : Option PersistedValidatorHistory) :
    Option ValidatorSetHistory :=
  loadOr stored ValidatorSetHistory.fromPersisted (.fromGenesis cfg.validatorSet)

/-- Blocks that are read back leave the genesis history alone. -/
theorem startingCore_validatorHistory (P : Primitives) (cfg : NodeConfig) (storage : Storage) :
    (startingCore P cfg storage).state.validatorHistory = .fromGenesis cfg.validatorSet := by
  change (recoverState P storage cfg.validatorSet (cfg.genesis P)).validatorHistory = _
  apply recoverState_invariant
    (I := fun s => s.validatorHistory = .fromGenesis cfg.validatorSet)
  · intro s b _ _ hs
    rw [HotStuffState.insertPending_validatorHistory]
    exact hs
  · rfl

theorem recover_history {P : Primitives} {cfg : NodeConfig} {storage : Storage}
    {n : ConsensusNode} {h : ValidatorSetHistory} (hr : recover P cfg storage = some n)
    (hst : storedHistory cfg storage.validatorHistory = some h)
    (hs : h.StartsFrom cfg.validatorSet) :
    n.validatorHistory = h ∧ n.core.state.validatorHistory = h := by
  have hrecovered := recovered_of_recover hr
  have hnode : h = n.validatorHistory := Option.some.inj (hst.symm.trans hrecovered.history)
  have hreplay := (replayBoundaries_iter (startingCore_validatorHistory P cfg storage) hs).1
  rw [hnode, hrecovered.core] at hreplay
  exact ⟨hnode.symm, hreplay.trans hnode.symm⟩

end ConsensusNode

theorem Storage.validatorHistory_persistUpdates (s : Storage) (pending : Table BlockHash Block)
    (updates : List StateUpdate) :
    (s.persistUpdates pending updates).validatorHistory = s.validatorHistory := by
  have hput : (updates.foldl Storage.put s).validatorHistory = s.validatorHistory := by
    induction updates generalizing s with
    | nil => rfl
    | cons u us ih =>
      rw [List.foldl_cons, ih]
      cases u <;> rfl
  rw [← hput]
  clear hput
  unfold persistUpdates
  generalize updates.foldl put s = t
  induction updates generalizing t with
  | nil => rfl
  | cons u us ih =>
    rw [List.foldl_cons, ih]
    rcases putReferenced_eq pending t u with he | ⟨h, b, -, he⟩
    · rw [he]
    · rw [he]
      rfl

/-! ### Steps of the machine -/

/-- The block that the next round of the interpreter commits. -/
def Process.commits (P : Primitives) (cfg : NodeConfig) (p : Process) : NodeInput → Option Block
  | .interpret _ =>
    match p.frames with
    | ⟨[], .commit block :: _⟩ :: _ =>
      if weakSubjectivityViolation cfg.weakSubjectivityCheckpoint block.header.height
        (block.hash P) then none else some block
    | _ => none
  | _ => none

/-- Equal in the histories. -/
structure SameHistories (n n' : ConsensusNode) : Prop where
  node : n'.validatorHistory = n.validatorHistory
  core : n'.core.state.validatorHistory = n.core.state.validatorHistory

/-- What a step can do to the histories. -/
inductive HistoryStep (P : Primitives) (R : ReconfigPrimitives) (cfg : NodeConfig)
    (m m' : Machine) (input : NodeInput) : Prop where
  | same (p p' : Process) (hp : m.process = some p) (hp' : m'.process = some p')
      (hcommit : p.commits P cfg input = none) (hsame : SameHistories p.node p'.node)
      (hst : m'.storage.validatorHistory = m.storage.validatorHistory)
  | down (hp : m'.process = none) (hcommit : ∀ p ∈ m.process, p.commits P cfg input = none)
      (hst : m'.storage.validatorHistory = m.storage.validatorHistory)
  | recovered (p : Process) (hp : m.process = none) (hp' : m'.process = some p)
      (hr : ConsensusNode.recover P cfg m.storage = some p.node) (hst : m'.storage = m.storage)
  | committed (p p' : Process) (block : Block) (hp : m.process = some p)
      (hp' : m'.process = some p') (hcommit : p.commits P cfg input = some block)
      (hc : ConsensusNode.CommitHistory R cfg.minVEffDelay (cfg.chainId P)
        m.storage.validatorHistory m'.storage.validatorHistory p.node p'.node block)
  | restored (p : Process) (order : IterOrder) (manifest : SnapshotManifest)
      (hp : m.process = some p) (hi : input = .restore order true manifest)

namespace SameHistories
variable {P : Primitives}

theorem refl (n : ConsensusNode) : SameHistories n n := ⟨rfl, rfl⟩

theorem insertPendingBlocks (n : ConsensusNode) (blocks : List Block) :
    SameHistories n (n.insertPendingBlocks P blocks) := by
  refine ⟨rfl, ?_⟩
  show (blocks.foldl (HotStuffCore.insertPendingBlock P) n.core).state.validatorHistory = _
  generalize n.core = c
  induction blocks generalizing c with
  | nil => rfl
  | cons b bs ih =>
    rw [List.foldl_cons, ih]
    exact HotStuffState.insertPending_validatorHistory P c.state b

theorem applyDispatch (n : ConsensusNode) (validated : Bool) (d : Dispatch) :
    SameHistories n (n.applyDispatch P validated d).1 := by
  constructor
  · cases d with
    | receiveBlock requestedHash block sender =>
      cases block with
      | none => rfl
      | some block =>
        simp only [ConsensusNode.applyDispatch]
        split_ifs <;> rfl
    | receiveBlockRange fromHeight toHeight blocks sender =>
      simp only [ConsensusNode.applyDispatch]
      split_ifs <;> rfl
    | _ => rfl
  · rw [ConsensusNode.applyDispatch_core]
    exact (insertPendingBlocks n _).core

theorem maybeEmitBlockRangeRequest (n : ConsensusNode) (proposer : NodeId) (height : ℕ) :
    SameHistories n (n.maybeEmitBlockRangeRequest proposer height) := by
  unfold ConsensusNode.maybeEmitBlockRangeRequest
  simp only
  split_ifs <;> exact ⟨rfl, rfl⟩

end SameHistories

section
variable {P : Primitives} {V : Verifier} {R : ReconfigPrimitives} {cfg : NodeConfig}
  {m : Machine} {n : ConsensusNode} {frames : List Frame} {input : NodeInput}

theorem historyStep_feed (hp : m.process = some ⟨n, frames⟩)
    (hcommit : Process.commits P cfg ⟨n, frames⟩ input = none) (order : IterOrder)
    {fed : ConsensusNode × Option Event} (hsame : SameHistories n fed.1) :
    HistoryStep P R cfg m (m.feed P frames order fed) input := by
  unfold Machine.feed
  cases fed.2 with
  | none => exact .same _ _ hp rfl hcommit hsame rfl
  | some event =>
    refine .same _ _ hp rfl hcommit ⟨hsame.node, ?_⟩ rfl
    exact (HotStuffCore.validatorHistory_step P fed.1.core order event).trans hsame.core

theorem historyStep_boot (hp : m.process = none) :
    HistoryStep P R cfg m (m.boot P cfg) input := by
  have hdown : HistoryStep P R cfg m { m with process := none } input :=
    .down rfl (by simp [hp]) rfl
  unfold Machine.boot
  cases hr : ConsensusNode.recover P cfg m.storage with
  | none => exact hdown
  | some n =>
    simp only
    split_ifs
    · exact .recovered ⟨n, []⟩ hp rfl hr rfl
    · exact hdown

theorem historyStep_handleAction {action : Action} {rest : List Action} {answers : Answers}
    (hp : m.process = some ⟨n, ⟨[], action :: rest⟩ :: frames⟩) :
    HistoryStep P R cfg m
      (m.handleAction P V R cfg n (⟨[], rest⟩ :: frames) answers action) (.interpret answers) := by
  have hkeep : ∀ {m' : Machine} {n' : ConsensusNode} {frames' : List Frame},
      Process.commits P cfg ⟨n, ⟨[], action :: rest⟩ :: frames⟩ (.interpret answers) = none →
      m'.process = some ⟨n', frames'⟩ → SameHistories n n' →
      m'.storage.validatorHistory = m.storage.validatorHistory →
      HistoryStep P R cfg m m' (.interpret answers) :=
    fun hcommit hp' hsame hst => .same _ _ hp hp' hcommit hsame hst
  cases action with
  | broadcast msg =>
    cases msg <;> simp only [Machine.handleAction] <;> split_ifs <;>
      exact hkeep rfl rfl ⟨rfl, rfl⟩ rfl
  | commit block =>
    simp only [Machine.handleAction]
    cases hc : n.applyCommit P R cfg m.storage block with
    | none =>
      refine .down rfl (fun p hp' => ?_) rfl
      obtain rfl := Option.some.inj (hp.symm.trans hp')
      exact if_pos (ConsensusNode.applyCommit_eq_none_iff.mp hc)
    | some r =>
      obtain ⟨storage, n'⟩ := r
      refine .committed _ _ block hp rfl ?_ (ConsensusNode.commitHistory_applyCommit hc)
      apply if_neg
      rw [← ConsensusNode.applyCommit_eq_none_iff (R := R) (n := n), hc]
      simp
  | buildProposal view highQc parent =>
    simp only [Machine.handleAction]
    cases (if n.isFull = true then none else answers.built) with
    | none => exact hkeep rfl rfl ⟨rfl, rfl⟩ rfl
    | some block => exact hkeep rfl rfl ⟨rfl, rfl⟩ rfl
  | persist u => exact hkeep rfl rfl ⟨rfl, rfl⟩ rfl
  | requestBlock hash peer expectedHeight reason => exact hkeep rfl rfl ⟨rfl, rfl⟩ rfl
  | equivocationEvidence voter view a b => exact hkeep rfl rfl ⟨rfl, rfl⟩ rfl
  | proposalEquivocationEvidence leader view a b => exact hkeep rfl rfl ⟨rfl, rfl⟩ rfl

theorem historyStep_interpret (answers : Answers) (hp : m.process = some ⟨n, frames⟩) :
    HistoryStep P R cfg m (m.interpret P V R cfg n frames answers) (.interpret answers) := by
  cases frames with
  | nil => exact .same _ _ hp hp rfl (.refl n) rfl
  | cons frame frames =>
    obtain ⟨buf, rest⟩ := frame
    have hflush := Storage.validatorHistory_persistUpdates m.storage n.core.state.pendingBlocks buf
    cases rest with
    | nil =>
      refine .same _ ⟨n, frames⟩ hp rfl ?_ (.refl n) hflush
      cases buf <;> rfl
    | cons action rest =>
      have hother : HistoryStep P R cfg m
          (if buf.isEmpty then m.handleAction P V R cfg n (⟨[], rest⟩ :: frames) answers action
          else Machine.keep
            { m with storage := m.storage.persistUpdates n.core.state.pendingBlocks buf } n
            (⟨[], action :: rest⟩ :: frames)) (.interpret answers) := by
        split_ifs with hb
        · rw [List.isEmpty_iff.mp hb] at hp
          exact historyStep_handleAction hp
        · refine .same _ ⟨n, ⟨[], action :: rest⟩ :: frames⟩ hp rfl ?_ (.refl n) hflush
          cases buf with
          | nil => simp at hb
          | cons u buf => rfl
      cases action with
      | persist u =>
        refine .same _ ⟨n, ⟨buf ++ [u], rest⟩ :: frames⟩ hp rfl ?_ (.refl n) rfl
        cases buf <;> rfl
      | _ => exact hother

/-- Every step is one of these. -/
theorem historyStep_step (P : Primitives) (V : Verifier) (R : ReconfigPrimitives)
    (cfg : NodeConfig) (m : Machine) (input : NodeInput) :
    HistoryStep P R cfg m (m.step P V R cfg input) input := by
  unfold Machine.step
  cases hp : m.process with
  | none =>
    have hdown : HistoryStep P R cfg m m input := .down hp (by simp [hp]) rfl
    cases input with
    | boot => exact historyStep_boot hp
    | crash => exact .down rfl (by simp [hp]) rfl
    | _ => exact hdown
  | some p =>
    obtain ⟨n, frames⟩ := p
    cases input with
    | boot => exact .same _ _ hp hp rfl (.refl n) rfl
    | crash => exact .down rfl (fun _ _ => rfl) rfl
    | dispatch order validated d =>
      exact historyStep_feed hp rfl order (.applyDispatch n validated d)
    | becomeLeader view =>
      simp only
      split_ifs
      · exact .same _ _ hp hp rfl (.refl n) rfl
      · exact .same _ _ hp rfl rfl (.refl n) rfl
    | blockSyncRetryTick =>
      have hstate := n.core.quiet_stepBlockSyncRetryTick.1.state
      exact .same _ _ hp rfl rfl ⟨rfl, congrArg HotStuffState.validatorHistory hstate⟩ rfl
    | blockRangeRequest proposer proposalHeight =>
      exact .same _ _ hp rfl rfl (.maybeEmitBlockRangeRequest n proposer proposalHeight) rfl
    | blockRangeRetry due => exact .same _ _ hp rfl rfl ⟨rfl, rfl⟩ rfl
    | restore order restored manifest =>
      cases restored with
      | true => exact .restored _ order manifest hp rfl
      | false => exact .same _ _ hp hp rfl (.refl n) rfl
    | interpret answers => exact historyStep_interpret answers hp
    | releaseStashed =>
      simp only [Machine.releaseStashed]
      cases n.stashedProposal with
      | none => exact .same _ _ hp hp rfl (.refl n) rfl
      | some p => exact .same _ _ hp rfl rfl ⟨rfl, rfl⟩ rfl

/-- A committing step applies the block to the histories. -/
theorem commitHistory_step {m : Machine} {p : Process} {input : NodeInput} {block : Block}
    (hp : m.process = some p) (hb : p.commits P cfg input = some block) :
    ∃ p', (m.step P V R cfg input).process = some p' ∧
      ConsensusNode.CommitHistory R cfg.minVEffDelay (cfg.chainId P) m.storage.validatorHistory
        (m.step P V R cfg input).storage.validatorHistory p.node p'.node block := by
  cases historyStep_step P V R cfg m input with
  | same q p' hq hp' hcommit hsame hst =>
    obtain rfl := Option.some.inj (hp.symm.trans hq)
    exact absurd (hb.symm.trans hcommit) (by simp)
  | down hp' hcommit hst => exact absurd (hb.symm.trans (hcommit p hp)) (by simp)
  | recovered q hq hp' hr hst => exact absurd (hp.symm.trans hq) (by simp)
  | committed q p' block' hq hp' hcommit hc =>
    obtain rfl := Option.some.inj (hp.symm.trans hq)
    obtain rfl := Option.some.inj (hb.symm.trans hcommit)
    exact ⟨p', hp', hc⟩
  | restored q order manifest hq hi =>
    rw [hi] at hb
    exact absurd hb (by simp [Process.commits])

end

end Boule
