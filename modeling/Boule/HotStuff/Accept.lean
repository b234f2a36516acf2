import Boule.HotStuff.SafetyRules
import Boule.HotStuff.Types

/-! What `on_proposal_received` does to the state once the parent is known: insert the block,
vote, lock the grandparent, commit the head of a three-chain. -/
namespace Boule.HotStuffState

/-- The state, the persisted updates and the vote to send. -/
def castVote (P : Primitives) (s : HotStuffState) (p : Proposal) :
    HotStuffState × List Action × Option Vote :=
  if safeToVote P p s then
    let view := p.block.header.view
    let vote : Vote := ⟨view, p.block.hash P⟩
    let s := { s with lastVotedView := view }
    if shouldUpdateHighQc p.justify s then
      ({ s with highQc := some p.justify },
        [.persist (.votedInView view), .persist (.highQc p.justify)], some vote)
    else (s, [.persist (.votedInView view)], some vote)
  else (s, [], none)

def twoChainCandidate (s : HotStuffState) (parentHash : BlockHash) : Option Locked :=
  (s.getPending parentHash).bind fun b =>
    (s.getPending b.header.parentHash).map fun b' =>
      ⟨b'.header.view, b'.header.height, b.header.parentHash⟩

def lockedHeight (s : HotStuffState) : ℕ := (s.locked.map Locked.height).getD 0

def updateLock (s : HotStuffState) (parentHash : BlockHash) : HotStuffState × List Action :=
  match s.twoChainCandidate parentHash with
  | none => (s, [])
  | some candidate =>
    if s.lockedHeight < candidate.height then
      ({ s with locked := some candidate }, [.persist (.locked candidate)])
    else (s, [])

def commitThreeChain (s : HotStuffState) (justify : QuorumCertificate) :
    HotStuffState × List Action :=
  match threeChainCommit justify s with
  | none => (s, [])
  | some committed =>
    ({ s with
        pendingBlocks := s.pendingBlocks.retain
          fun _ b => committed.header.height < b.header.height },
      [.commit committed])

def acceptProposal (P : Primitives) (s : HotStuffState) (p : Proposal) :
    HotStuffState × List Action :=
  let s := s.insertPending P p.block
  let (s, voteActions, vote) := s.castVote P p
  let (s, lockActions) := s.updateLock p.block.header.parentHash
  let (s, commitActions) := s.commitThreeChain p.justify
  (s, voteActions ++ lockActions ++ (vote.map fun v => .broadcast (.vote v)).toList ++
    commitActions)

/-- The proposal is safe to vote for once its block is pending. -/
def votesFor (P : Primitives) (s : HotStuffState) (p : Proposal) : Bool :=
  safeToVote P p (s.insertPending P p.block)

/-- The grandparent the proposal offers as a lock. -/
def lockCandidate (P : Primitives) (s : HotStuffState) (p : Proposal) : Option Locked :=
  (s.insertPending P p.block).twoChainCandidate p.block.header.parentHash

/-- The block the proposal commits. -/
def commits (P : Primitives) (s : HotStuffState) (p : Proposal) : Option Block :=
  threeChainCommit p.justify (s.insertPending P p.block)

/-- The lock after the proposal. -/
def nextLock (P : Primitives) (s : HotStuffState) (p : Proposal) : Option Locked :=
  match s.lockCandidate P p with
  | none => s.locked
  | some candidate => if s.lockedHeight < candidate.height then some candidate else s.locked

/-- The lock update the proposal persists. -/
def lockActions (P : Primitives) (s : HotStuffState) (p : Proposal) : List Action :=
  match s.lockCandidate P p with
  | none => []
  | some candidate =>
    if s.lockedHeight < candidate.height then [.persist (.locked candidate)] else []

/-- Nothing but the pending blocks, the lock, the last voted view and the high certificate
differs. -/
structure SameConfig (s s' : HotStuffState) : Prop where
  currentView : s'.currentView = s.currentView
  validatorSet : s'.validatorSet = s.validatorSet
  validatorHistory : s'.validatorHistory = s.validatorHistory
  genesisHash : s'.genesisHash = s.genesisHash
  pendingBlocksCapacity : s'.pendingBlocksCapacity = s.pendingBlocksCapacity

theorem SameConfig.trans {s₁ s₂ s₃ : HotStuffState} (h : SameConfig s₁ s₂)
    (h' : SameConfig s₂ s₃) : SameConfig s₁ s₃ where
  currentView := h'.currentView.trans h.currentView
  validatorSet := h'.validatorSet.trans h.validatorSet
  validatorHistory := h'.validatorHistory.trans h.validatorHistory
  genesisHash := h'.genesisHash.trans h.genesisHash
  pendingBlocksCapacity := h'.pendingBlocksCapacity.trans h.pendingBlocksCapacity

variable (P : Primitives) (s : HotStuffState) (p : Proposal)

theorem sameConfig_insertPending (b : Block) : SameConfig s (s.insertPending P b) := by
  constructor <;> simp

theorem castVote_frame : (s.castVote P p).1.pendingBlocks = s.pendingBlocks ∧
    (s.castVote P p).1.locked = s.locked ∧ SameConfig s (s.castVote P p).1 := by
  unfold castVote
  by_cases hv : safeToVote P p s = true
  · rw [if_pos hv]
    simp only
    split_ifs <;> exact ⟨rfl, rfl, rfl, rfl, rfl, rfl, rfl⟩
  · rw [if_neg hv]
    exact ⟨rfl, rfl, rfl, rfl, rfl, rfl, rfl⟩

theorem castVote_lastVotedView : (s.castVote P p).1.lastVotedView =
    if safeToVote P p s then p.block.header.view else s.lastVotedView := by
  unfold castVote
  by_cases hv : safeToVote P p s = true
  · rw [if_pos hv, if_pos hv]
    simp only
    split_ifs <;> rfl
  · rw [if_neg hv, if_neg hv]

theorem castVote_actions : (s.castVote P p).2.1.filter Action.isSafety =
      (if safeToVote P p s then [.persist (.votedInView p.block.header.view)] else []) ∧
    (s.castVote P p).2.2 =
      if safeToVote P p s then some ⟨p.block.header.view, p.block.hash P⟩ else none := by
  unfold castVote
  by_cases hv : safeToVote P p s = true
  · simp only [if_pos hv]
    split_ifs <;> exact ⟨rfl, rfl⟩
  · simp [if_neg hv]

theorem updateLock_frame (h : BlockHash) : (s.updateLock h).1.pendingBlocks = s.pendingBlocks ∧
    (s.updateLock h).1.lastVotedView = s.lastVotedView ∧ SameConfig s (s.updateLock h).1 := by
  unfold updateLock
  cases s.twoChainCandidate h with
  | none => exact ⟨rfl, rfl, rfl, rfl, rfl, rfl, rfl⟩
  | some c =>
    simp only
    split_ifs <;> exact ⟨rfl, rfl, rfl, rfl, rfl, rfl, rfl⟩

theorem commitThreeChain_frame (qc : QuorumCertificate) :
    (s.commitThreeChain qc).1.locked = s.locked ∧
    (s.commitThreeChain qc).1.lastVotedView = s.lastVotedView ∧
    SameConfig s (s.commitThreeChain qc).1 := by
  unfold commitThreeChain
  cases threeChainCommit qc s <;> exact ⟨rfl, rfl, rfl, rfl, rfl, rfl, rfl⟩

theorem twoChainCandidate_congr {s s' : HotStuffState} (h : s'.pendingBlocks = s.pendingBlocks)
    (hash : BlockHash) : s'.twoChainCandidate hash = s.twoChainCandidate hash := by
  unfold twoChainCandidate getPending
  rw [h]

theorem threeChainCommit_congr {s s' : HotStuffState} (h : s'.pendingBlocks = s.pendingBlocks)
    (qc : QuorumCertificate) : threeChainCommit qc s' = threeChainCommit qc s := by
  unfold threeChainCommit
  rw [h]

theorem lockCandidate_eq : s.lockCandidate P p =
    ((s.insertPending P p.block).castVote P p).1.twoChainCandidate p.block.header.parentHash :=
  (twoChainCandidate_congr (castVote_frame P _ p).1 _).symm

theorem commits_eq : s.commits P p = threeChainCommit p.justify
    (updateLock ((s.insertPending P p.block).castVote P p).1 p.block.header.parentHash).1 :=
  (threeChainCommit_congr ((updateLock_frame _ _).1.trans (castVote_frame P _ p).1) _).symm

/-- The candidate is the grandparent, when parent and grandparent are pending. -/
theorem lockCandidate_eq_some_iff (l : Locked) : s.lockCandidate P p = some l ↔
    ∃ y z, (s.insertPending P p.block).getPending p.block.header.parentHash = some y ∧
      (s.insertPending P p.block).getPending y.header.parentHash = some z ∧
      l = ⟨z.header.view, z.header.height, y.header.parentHash⟩ := by
  unfold lockCandidate twoChainCandidate
  constructor
  · intro h
    obtain ⟨y, hy, h⟩ := Option.bind_eq_some_iff.mp h
    obtain ⟨z, hz, h⟩ := Option.map_eq_some_iff.mp h
    exact ⟨y, z, hy, hz, h.symm⟩
  · rintro ⟨y, z, hy, hz, rfl⟩
    simp [hy, hz]

theorem lockedHeight_castVote :
    ((s.insertPending P p.block).castVote P p).1.lockedHeight = s.lockedHeight := by
  unfold lockedHeight
  rw [(castVote_frame P _ p).2.1, insertPending_locked]

theorem acceptProposal_lastVotedView : (s.acceptProposal P p).1.lastVotedView =
    if s.votesFor P p then p.block.header.view else s.lastVotedView := by
  unfold acceptProposal votesFor
  simp only [(commitThreeChain_frame _ _).2.1, (updateLock_frame _ _).2.1,
    castVote_lastVotedView, insertPending_lastVotedView]

theorem sameConfig_acceptProposal : SameConfig s (s.acceptProposal P p).1 :=
  (sameConfig_insertPending P s p.block).trans
    ((castVote_frame P _ p).2.2.trans
      ((updateLock_frame _ _).2.2.trans (commitThreeChain_frame _ _).2.2))

theorem acceptProposal_locked : (s.acceptProposal P p).1.locked = s.nextLock P p := by
  have hl : ((s.insertPending P p.block).castVote P p).1.locked = s.locked := by
    rw [(castVote_frame P _ p).2.1, insertPending_locked]
  unfold acceptProposal nextLock
  simp only [(commitThreeChain_frame _ _).1]
  unfold updateLock
  rw [← lockCandidate_eq, lockedHeight_castVote]
  cases s.lockCandidate P p with
  | none => exact hl
  | some c =>
    simp only
    split_ifs
    · rfl
    · exact hl

/-- What is pending after the proposal: the pruned blocks are those not above the commit. -/
theorem acceptProposal_getPending (h : BlockHash) (b : Block) :
    (s.acceptProposal P p).1.getPending h = some b ↔
      (s.insertPending P p.block).getPending h = some b ∧
        ∀ c, s.commits P p = some c → c.header.height < b.header.height := by
  have hp : (updateLock ((s.insertPending P p.block).castVote P p).1
      p.block.header.parentHash).1.pendingBlocks = (s.insertPending P p.block).pendingBlocks :=
    (updateLock_frame _ _).1.trans (castVote_frame P _ p).1
  unfold acceptProposal
  simp only
  unfold commitThreeChain
  rw [← commits_eq]
  cases s.commits P p with
  | none => simp [getPending, hp]
  | some c =>
    simp only [getPending, hp, Option.some.injEq, forall_eq']
    rw [Table.get?_retain_eq_some, decide_eq_true_iff]

theorem updateLock_actions :
    (updateLock ((s.insertPending P p.block).castVote P p).1 p.block.header.parentHash).2 =
      s.lockActions P p := by
  unfold updateLock lockActions
  rw [← lockCandidate_eq, lockedHeight_castVote]
  cases s.lockCandidate P p with
  | none => rfl
  | some c =>
    simp only
    split_ifs <;> rfl

theorem mem_lockActions {a : Action} (h : a ∈ s.lockActions P p) :
    ∃ l, a = .persist (.locked l) := by
  unfold lockActions at h
  cases hc : s.lockCandidate P p with
  | none => simp [hc] at h
  | some c =>
    simp only [hc] at h
    split_ifs at h
    · exact ⟨c, List.mem_singleton.mp h⟩
    · simp at h

theorem filter_lockActions : (s.lockActions P p).filter Action.isSafety = s.lockActions P p := by
  refine List.filter_eq_self.mpr fun a ha => ?_
  obtain ⟨l, rfl⟩ := mem_lockActions P s p ha
  rfl

/-- The vote is recorded first, then the lock; the vote leaves after both. -/
theorem acceptProposal_safety : (s.acceptProposal P p).2.filter Action.isSafety =
    (if s.votesFor P p then [.persist (.votedInView p.block.header.view)] else []) ++
    s.lockActions P p ++
    (if s.votesFor P p then [.broadcast (.vote ⟨p.block.header.view, p.block.hash P⟩)] else []) ++
    ((s.commits P p).map Action.commit).toList := by
  obtain ⟨ha, hv⟩ := castVote_actions P (s.insertPending P p.block) p
  unfold acceptProposal
  simp only [List.filter_append]
  rw [ha, hv, updateLock_actions, filter_lockActions, commitThreeChain, ← commits_eq]
  congr 1
  · congr 1
    unfold votesFor
    split_ifs <;> rfl
  · cases s.commits P p <;> rfl

theorem vote_mem_acceptProposal (v : Vote) :
    .broadcast (.vote v) ∈ (s.acceptProposal P p).2 ↔
      s.votesFor P p = true ∧ v = ⟨p.block.header.view, p.block.hash P⟩ := by
  have hl : Action.broadcast (.vote v) ∉ s.lockActions P p := by
    intro h
    obtain ⟨l, hl⟩ := mem_lockActions P s p h
    cases hl
  have hf : .broadcast (.vote v) ∈ (s.acceptProposal P p).2 ↔
      .broadcast (.vote v) ∈ (s.acceptProposal P p).2.filter Action.isSafety := by
    simp [List.mem_filter, Action.isSafety]
  rw [hf, acceptProposal_safety]
  cases hv : s.votesFor P p <;> simp [hl]

theorem commit_mem_acceptProposal (b : Block) :
    .commit b ∈ (s.acceptProposal P p).2 ↔ s.commits P p = some b := by
  have hl : Action.commit b ∉ s.lockActions P p := by
    intro h
    obtain ⟨l, hl⟩ := mem_lockActions P s p h
    cases hl
  have hf : .commit b ∈ (s.acceptProposal P p).2 ↔
      .commit b ∈ (s.acceptProposal P p).2.filter Action.isSafety := by
    simp [List.mem_filter, Action.isSafety]
  rw [hf, acceptProposal_safety]
  cases hv : s.votesFor P p <;> simp [hl, eq_comm]

end Boule.HotStuffState
