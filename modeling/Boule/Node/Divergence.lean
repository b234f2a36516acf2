import Boule.Reth.Execution

/-! The check of a proposal's state root against the voter's own. -/
namespace Boule

/-- The blocks that the nodes commit, one after the other. -/
structure CommittedChain where
  blocks : List RethBlock
  height : ∀ (k : ℕ) b, blocks[k]? = some b → b.height = k + 1

/-- What a leader stamps on a header. -/
structure StampedRoot where
  committedHeight : ℕ
  committedStateRoot : Bytes32
  deriving DecidableEq

/-- Some nodes, and the headers of their proposals. -/
structure RootSystem (ι : Type) where
  nodes : ι → ElNode
  headers : List StampedRoot

/-- A restarted process recovers the head of the block at this height, if reth has finalized one. -/
inductive RootInput (ι : Type) where
  | commit (i : ι) (answer : ElAnswer)
  | replay (i : ι) (minGap : ℕ) (elHead : Option ℕ) (answers : ℕ → ElAnswer)
  | restart (i : ι) (finalized : Option ℕ)
  | propose (i : ι)
  | receive (i : ι) (header : StampedRoot)

namespace CommittedChain

/-- The state root after the blocks up to the height. -/
def rootAt (c : CommittedChain) (genesisRoot : Bytes32) (height : ℕ) : Bytes32 :=
  (((c.blocks.take height).filterMap RethBlock.payload).getLast?.map
    ExecutionPayload.stateRoot).getD genesisRoot

/-- Only blocks with a payload are blocks of the EVM chain. -/
def evmNumber (c : CommittedChain) (height : ℕ) : ℕ :=
  ((c.blocks.take height).filterMap RethBlock.payload).length

/-- Number and state root of the finalized block, which is the one committed at the height; the
genesis block does not count. -/
def finalizedHead (c : CommittedChain) : ℕ → Option (ℕ × Bytes32)
  | 0 => none
  | k + 1 => do
    let b ← c.blocks[k]?
    let payload ← b.payload
    return (c.evmNumber (k + 1), payload.stateRoot)

end CommittedChain

namespace ElNode

/-- The divergence check of a vote. -/
def withholdsVote (n : ElNode) (header : StampedRoot) : Bool :=
  header.committedHeight = n.lastCommittedHeight &&
    n.app.stateCommitment ≠ header.committedStateRoot

def stamp (n : ElNode) : StampedRoot := ⟨n.app.committed.height, n.app.committed.stateRoot⟩

/-- Every block between the frontier of the node and its last commit is without a payload. -/
def UpToDate (n : ElNode) (c : CommittedChain) : Prop :=
  ∀ b ∈ (c.blocks.take (max n.app.committed.height n.lastCommittedHeight)).drop
    (min n.app.committed.height n.lastCommittedHeight), b.payload = none

instance UpToDate.decidable (n : ElNode) (c : CommittedChain) : Decidable (n.UpToDate c) :=
  inferInstanceAs (Decidable (∀ b ∈ _, _))

end ElNode

section
variable {ι : Type} (logsAt : ℕ → List Log) (window : ℕ)
  (genesis : List (NodeId × ℕ)) (genesisRoot : Bytes32) (c : CommittedChain)

namespace RootSystem

def start : RootSystem ι := ⟨fun _ => .start (.start genesis genesisRoot), []⟩

def update [DecidableEq ι] (s : RootSystem ι) (i : ι) (f : ElNode → ElNode) : RootSystem ι :=
  { s with nodes := Function.update s.nodes i (f (s.nodes i)) }

/-- A node commits the block after its last one. -/
def commitNext (n : ElNode) (answer : ElAnswer) : ElNode :=
  match c.blocks[n.lastCommittedHeight]? with
  | none => n
  | some b => n.commitBlock logsAt window b answer

def step [DecidableEq ι] (s : RootSystem ι) : RootInput ι → RootSystem ι
  | .commit i answer => s.update i (commitNext logsAt window c · answer)
  | .replay i minGap elHead answers =>
    s.update i (ElNode.elCatchupReplay logsAt · minGap elHead answers)
  | .restart i finalized =>
    s.update i (ElNode.restart genesis genesisRoot · (finalized.bind c.finalizedHead))
  | .propose i => { s with headers := s.headers ++ [(s.nodes i).stamp] }
  | .receive _ _ => s

/-- Restarts find a head with the number of its height, voters are up to date. -/
def Executed (s : RootSystem ι) : RootInput ι → Prop
  | .restart _ finalized => ∀ k ∈ finalized, c.evmNumber k = k
  | .receive i header => header.committedHeight = (s.nodes i).lastCommittedHeight →
    (s.nodes i).UpToDate c
  | _ => True

/-- No vote for a proposal of a node is withheld. -/
def VotesKept (s : RootSystem ι) : RootInput ι → Prop
  | .receive i header => header ∈ s.headers → (s.nodes i).withholdsVote header = false
  | _ => True

instance Executed.decidable : ∀ (s : RootSystem ι) a, Decidable (Executed c s a)
  | _, .restart _ finalized => inferInstanceAs (Decidable (∀ k ∈ finalized, c.evmNumber k = k))
  | s, .receive i _ => inferInstanceAs (Decidable (_ → (s.nodes i).UpToDate c))
  | _, .commit .. | _, .replay .. | _, .propose .. => inferInstanceAs (Decidable True)

instance VotesKept.decidable : ∀ (s : RootSystem ι) a, Decidable (VotesKept s a)
  | _, .receive .. => inferInstanceAs (Decidable (_ → _ = false))
  | _, .restart .. | _, .commit .. | _, .replay .. | _, .propose .. =>
    inferInstanceAs (Decidable True)

end RootSystem

/-! ### What a node keeps -/

/-- The root of an application's frontier is that of its height. -/
def RootKept (a : RethApplication) : Prop :=
  a.committed.stateRoot = c.rootAt genesisRoot a.committed.height

/-- Only blocks of the chain are stored. -/
structure OnChain (n : ElNode) : Prop where
  root : RootKept genesisRoot c n.app
  retained : ∀ b ∈ n.retained, b ∈ c.blocks

variable {logsAt window genesis genesisRoot c}

variable (genesisRoot) in
theorem CommittedChain.rootAt_of_mem {b : RethBlock} (hb : b ∈ c.blocks)
    {payload : ExecutionPayload} (hp : b.payload = some payload) :
    c.rootAt genesisRoot b.height = payload.stateRoot := by
  obtain ⟨k, hk, hget⟩ := List.mem_iff_getElem.mp hb
  have hget' : c.blocks[k]? = some b := by rw [List.getElem?_eq_getElem hk, hget]
  unfold rootAt
  rw [c.height k b hget', List.take_add_one, hget', Option.toList_some, List.filterMap_append]
  simp [hp]

variable (genesisRoot) in
/-- Blocks without a payload leave the root. -/
theorem CommittedChain.rootAt_of_drop {f h : ℕ} (hle : f ≤ h)
    (hnone : ∀ b ∈ (c.blocks.take h).drop f, b.payload = none) :
    c.rootAt genesisRoot f = c.rootAt genesisRoot h := by
  have hsplit : c.blocks.take h = c.blocks.take f ++ (c.blocks.take h).drop f := by
    conv_lhs => rw [← List.take_append_drop f (c.blocks.take h)]
    rw [List.take_take, min_eq_left hle]
  have hrest : ((c.blocks.take h).drop f).filterMap RethBlock.payload = [] :=
    List.filterMap_eq_nil_iff.mpr hnone
  unfold rootAt
  rw [hsplit, List.filterMap_append, hrest, List.append_nil]

theorem ElNode.UpToDate.rootAt {n : ElNode} (h : n.UpToDate c) :
    c.rootAt genesisRoot n.app.committed.height = c.rootAt genesisRoot n.lastCommittedHeight := by
  have hroot := CommittedChain.rootAt_of_drop genesisRoot min_le_max h
  rcases le_total n.app.committed.height n.lastCommittedHeight with hle | hle
  · rwa [min_eq_left hle, max_eq_right hle] at hroot
  · rw [min_eq_right hle, max_eq_left hle] at hroot
    exact hroot.symm

variable (logsAt) in
/-- Only a valid payload moves the frontier. -/
theorem RethApplication.commit_cases (a : RethApplication) (b : RethBlock) (answer : ElAnswer) :
    (a.commit logsAt b answer).1 = a ∨
      ∃ payload, b.payload = some payload ∧
        (a.commit logsAt b answer).1.committed = ⟨b.height, payload.stateRoot⟩ := by
  unfold commit
  cases hp : b.payload with
  | none => exact .inl rfl
  | some payload =>
    cases answer with
    | failed => exact .inl rfl
    | syncing => exact .inl rfl
    | valid => exact .inr ⟨payload, rfl, rfl⟩

variable (logsAt) in
theorem RootKept.commit {a : RethApplication} (h : RootKept genesisRoot c a) {b : RethBlock}
    (hb : b ∈ c.blocks) (answer : ElAnswer) :
    RootKept genesisRoot c (a.commit logsAt b answer).1 := by
  rcases a.commit_cases logsAt b answer with hsame | ⟨payload, hp, hmoved⟩
  · rwa [hsame]
  · rw [RootKept, hmoved]
    exact (CommittedChain.rootAt_of_mem genesisRoot hb hp).symm

theorem RootKept.replayBlocks {answers : ℕ → ElAnswer} {a : RethApplication}
    (h : RootKept genesisRoot c a) {gap : List RethBlock} (hgap : ∀ b ∈ gap, b ∈ c.blocks) :
    RootKept genesisRoot c (ElNode.replayBlocks logsAt answers a gap) := by
  induction gap generalizing a with
  | nil => exact h
  | cons b gap ih =>
    have hcommit := h.commit logsAt (hgap b (List.mem_cons_self ..)) (answers b.height)
    rw [ElNode.replayBlocks]
    split
    · next app' result happ =>
      rw [happ] at hcommit
      exact ih hcommit fun b' hb' => hgap b' (List.mem_cons_of_mem _ hb')
    · next app' happ => rwa [happ] at hcommit

theorem RootKept.slashes {a : RethApplication} (h : RootKept genesisRoot c a)
    (offenders : List NodeId) :
    RootKept genesisRoot c (offenders.foldl RethApplication.slash a) := by
  rwa [RootKept, RethApplication.committed_slashes]

theorem ElNode.commitBlock_app (n : ElNode) (b : RethBlock) (answer : ElAnswer) :
    (n.commitBlock logsAt window b answer).app = n.app.commitBlock logsAt b answer := by
  unfold commitBlock RethApplication.commitBlock
  rcases n.app.commit logsAt b answer with ⟨app, _ | result⟩ <;> rfl

theorem ElNode.commitBlock_retained (n : ElNode) (b : RethBlock) (answer : ElAnswer) :
    ∀ b' ∈ (n.commitBlock logsAt window b answer).retained, b' ∈ n.retained ∨ b' = b := by
  unfold commitBlock
  rcases n.app.commit logsAt b answer with ⟨app, _ | result⟩ <;>
  · intro b' hb'
    have hstored := (List.mem_filter.mp hb').1
    simpa [stageAppValidatorUpdates] using hstored

theorem ElNode.mem_replayed {n : ElNode} {minGap : ℕ} {elHead : Option ℕ} {b : RethBlock}
    (hb : b ∈ n.replayed minGap elHead) :
    b ∈ n.retained ∧ n.elFrontier elHead < b.height ∧ b.height ≤ n.lastCommittedHeight := by
  simp only [replayed] at hb
  split_ifs at hb
  · cases hb
  · cases hb
  · obtain ⟨h, hh, hfind⟩ := List.mem_filterMap.mp hb
    have hheight : b.height = h := by simpa using List.find?_some hfind
    have hrange := List.mem_range'_1.mp hh
    exact ⟨List.mem_of_find?_eq_some hfind, by omega, by omega⟩

namespace OnChain

theorem start : OnChain genesisRoot c (.start (.start genesis genesisRoot)) where
  root := rfl
  retained := nofun

theorem commitNext {n : ElNode} (h : OnChain genesisRoot c n) (answer : ElAnswer) :
    OnChain genesisRoot c (RootSystem.commitNext logsAt window c n answer) := by
  unfold RootSystem.commitNext
  cases hb : c.blocks[n.lastCommittedHeight]? with
  | none => exact h
  | some b =>
    have hmem : b ∈ c.blocks := List.mem_of_getElem? hb
    constructor
    · rw [ElNode.commitBlock_app]
      exact (h.root.commit logsAt hmem answer).slashes b.offenders
    · intro b' hb'
      rcases n.commitBlock_retained b answer b' hb' with hold | rfl
      · exact h.retained b' hold
      · exact hmem

theorem elCatchupReplay {n : ElNode} (h : OnChain genesisRoot c n) (minGap : ℕ)
    (elHead : Option ℕ) (answers : ℕ → ElAnswer) :
    OnChain genesisRoot c (n.elCatchupReplay logsAt minGap elHead answers) where
  root := h.root.replayBlocks fun b hb => h.retained b (ElNode.mem_replayed hb).1
  retained := h.retained

/-- The recovered height is the one that the root belongs to when the numbers agree. -/
theorem restart {n : ElNode} (h : OnChain genesisRoot c n) {finalized : Option ℕ}
    (hnumber : ∀ k ∈ finalized, c.evmNumber k = k) :
    OnChain genesisRoot c (n.restart genesis genesisRoot (finalized.bind c.finalizedHead)) := by
  refine ⟨?_, h.retained⟩
  unfold ElNode.restart
  cases hhead : finalized.bind c.finalizedHead with
  | none => rfl
  | some head =>
    obtain ⟨k, hk, hhead⟩ := Option.bind_eq_some_iff.mp hhead
    cases k with
    | zero => cases hhead
    | succ k =>
      obtain ⟨b, hb, hhead⟩ := Option.bind_eq_some_iff.mp hhead
      obtain ⟨payload, hp, hhead⟩ := Option.bind_eq_some_iff.mp hhead
      cases hhead
      have hroot := CommittedChain.rootAt_of_mem genesisRoot
        (List.mem_of_getElem? hb) hp
      rw [c.height k b hb, ← hnumber (k + 1) hk] at hroot
      exact hroot.symm

end OnChain

namespace RootSystem

variable {s : RootSystem ι}

/-- All nodes are on the chain, and every header names the root of its height. -/
structure Stamped (genesisRoot : Bytes32) (c : CommittedChain) (s : RootSystem ι) : Prop where
  nodes : ∀ i, OnChain genesisRoot c (s.nodes i)
  headers : ∀ header ∈ s.headers,
    header.committedStateRoot = c.rootAt genesisRoot header.committedHeight

theorem Stamped.update [DecidableEq ι] (h : Stamped genesisRoot c s) (i : ι)
    (f : ElNode → ElNode) (hf : OnChain genesisRoot c (f (s.nodes i))) :
    Stamped genesisRoot c (s.update i f) := by
  refine ⟨fun j => ?_, h.headers⟩
  by_cases hj : j = i
  · subst hj
    simpa [RootSystem.update] using hf
  · simpa [RootSystem.update, hj] using h.nodes j

theorem Stamped.step [DecidableEq ι] (h : Stamped genesisRoot c s) {a : RootInput ι}
    (ha : Executed c s a) :
    Stamped genesisRoot c (s.step logsAt window genesis genesisRoot c a) := by
  cases a with
  | commit i answer =>
    rw [RootSystem.step]
    refine h.update i _ ?_
    exact (h.nodes i).commitNext answer
  | replay i minGap elHead answers =>
    rw [RootSystem.step]
    refine h.update i _ ?_
    exact (h.nodes i).elCatchupReplay minGap elHead answers
  | restart i finalized =>
    rw [RootSystem.step]
    refine h.update i _ ?_
    exact (h.nodes i).restart ha
  | propose i =>
    refine ⟨h.nodes, fun header hheader => ?_⟩
    rcases List.mem_append.mp hheader with hold | hnew
    · exact h.headers header hold
    · rw [List.mem_singleton.mp hnew]
      exact (h.nodes i).root
  | receive i header => exact h

/-- An up-to-date voter has the root that every header of its height names. -/
theorem Stamped.votesKept (h : Stamped genesisRoot c s)
    {a : RootInput ι} (ha : Executed c s a) : VotesKept s a := by
  cases a with
  | receive i header =>
    intro hheader
    by_cases hheight : header.committedHeight = (s.nodes i).lastCommittedHeight
    · have hvoter : (s.nodes i).app.stateCommitment = header.committedStateRoot := by
        calc (s.nodes i).app.stateCommitment
            = c.rootAt genesisRoot (s.nodes i).app.committed.height := (h.nodes i).root
          _ = c.rootAt genesisRoot (s.nodes i).lastCommittedHeight := (ha hheight).rootAt
          _ = header.committedStateRoot := by rw [← hheight, h.headers header hheader]
      simp [ElNode.withholdsVote, hvoter]
    · simp [ElNode.withholdsVote, hheight]
  | _ => trivial

/-- In a run whose restarts recover the height of the finalized block, and whose voters are up to
date when the heights agree, no vote is withheld. -/
theorem votes_kept [DecidableEq ι] (logsAt : ℕ → List Log) (window : ℕ)
    (genesis : List (NodeId × ℕ)) (genesisRoot : Bytes32) (c : CommittedChain)
    (inputs : List (RootInput ι))
    (h : Along (step logsAt window genesis genesisRoot c) (Executed c)
      (start genesis genesisRoot) inputs) :
    Along (step logsAt window genesis genesisRoot c) VotesKept (start genesis genesisRoot)
      inputs := by
  refine h.imp_of_invariant (I := Stamped genesisRoot c) ?_ ?_
  · intro s a ha hs
    exact ⟨hs.step ha, hs.votesKept ha⟩
  · exact ⟨fun _ => OnChain.start, nofun⟩

end RootSystem

end

namespace Sample

/-- Blocks with payloads, their logs and no evidence. -/
def chainOf (len : ℕ) (logs : ℕ → List Log) : CommittedChain where
  blocks := (List.range len).map fun k =>
    ⟨k + 1, k, k + 1, some ⟨some (k + 1), 11 + k, [⟨2, true, 21000, logs (k + 1)⟩], []⟩, []⟩
  height := by
    intro k b hb
    rw [List.getElem?_map] at hb
    obtain ⟨a, ha, rfl⟩ := Option.map_eq_some_iff.mp hb
    obtain ⟨_, ha⟩ := List.getElem?_eq_some_iff.mp ha
    rw [List.getElem_range] at ha
    rw [ha]

def rooted : CommittedChain := chainOf 2 fun _ => []

def rootStep : RootSystem (Fin 2) → RootInput (Fin 2) → RootSystem (Fin 2) :=
  RootSystem.step (fun _ => []) 10 [] 10 rooted

/-- Both nodes have committed two blocks when the first one proposes; the other one has restarted
and replays the second block. -/
def proposing (answer : ElAnswer) : List (RootInput (Fin 2)) :=
  [.commit 0 .valid, .commit 0 .valid, .commit 1 .valid, .commit 1 .syncing, .restart 1 (some 1),
    .replay 1 1 none fun _ => answer, .propose 0, .receive 1 ⟨2, 12⟩]

/-- The execution layer of the voter still syncs the second block. -/
theorem vote_withheld : ¬ Along rootStep RootSystem.VotesKept (.start [] 10)
    (proposing .syncing) := by
  decide

theorem vote_kept : Along rootStep RootSystem.VotesKept (.start [] 10) (proposing .valid) :=
  RootSystem.votes_kept (fun _ => []) 10 [] 10 rooted (proposing .valid) (by decide)

end Sample

end Boule
